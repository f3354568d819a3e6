import ChillHints.Hint.Emit
import ChillHints.Proofs.Direct
import ChillHints.Proofs.NextUse
import ChillHints.Proofs.Spilling

/-!
# Following hints is never seen from outside

A store that follows hints stands for the store with a place for every group (`Mirrors`): it holds the same values,
except that a value may have been thrown away, and that a value may have to stay unread for a while. What makes this
harmless is what can still be used. A value that was thrown away cannot be read again on any path, and a value is
chilled at most until the next read of it on any path. Each thing the machine does keeps that:

* a read takes place at a use path of one step, so the value is there and is not chilled any more;
* a write or a drop starts or ends a value, and with it all that was known of the old one;
* every other value is one instruction nearer to its uses;
* a hint may throw away or chill what is not used so soon on any path, which is what a sound table says (`Sound`).

A run that follows a sound table therefore answers what the direct run does (`follows_sound`). The hints that are
chosen from the next uses of a unit are sound (`sound_emit`), whatever the least distance, so a valid unit runs as if
there were none.
-/

namespace ChillHints

/-! ## One store stands for another -/

namespace Hinted

/-- What the store `t` has for `g` stands for `value` just before `step`. The numbers in `U` tell when the value can be
read from there: 1 is by the next instruction. -/
structure MirrorsAt (t : Hinted) (g : Group) (U : Nat → Prop) (step : Nat) (value : Option UInt64) : Prop where
  same : t.dead.get g = false → t.store.contents g = value
  dead : t.dead.get g = true → value = none ∨ ∀ n, ¬ U n
  cold : ∀ earliest, t.cold.get g = some earliest → value = none ∨ ∀ n, U n → earliest < step + n

/-- The store `t`, which follows the table `T`, stands for the direct store `s` just before `step`. -/
structure Mirrors (T : HintTable) (U : Group → Nat → Prop) (step : Nat) (s : Direct) (t : Hinted) : Prop where
  table_eq : t.table = T
  tidy : t.store.Tidy
  mirrors : ∀ g, g ≠ Group.sp → t.MirrorsAt g (U g) step (s.values.get g)

variable {T : HintTable} {U U' : Group → Nat → Prop} {step : Nat} {s s' : Direct} {t t' : Hinted} {g : Group}

/-- Nothing has happened to `g` between `t` and `t'`. -/
structure SameAt (t t' : Hinted) (g : Group) : Prop where
  dead : t'.dead.get g = t.dead.get g
  cold : t'.cold.get g = t.cold.get g
  contents : t'.store.contents g = t.store.contents g

/-- Uses that come nearer by no more than the steps go on. -/
def Nearer (U U' : Nat → Prop) (step step' : Nat) : Prop := ∀ n, U' n → ∃ m, U m ∧ step + m ≤ step' + n

theorem Nearer.refl (U : Nat → Prop) (step : Nat) : Nearer U U step step := fun n hn => ⟨n, hn, Nat.le_refl _⟩

section At

variable {V V' : Nat → Prop} {step' : Nat} {value : Option UInt64}

/-- What was known of a group stays known when nothing happens to it. -/
theorem MirrorsAt.carry (h : t.MirrorsAt g V step value) (hsame : SameAt t t' g) (hV : Nearer V V' step step') :
    t'.MirrorsAt g V' step' value := by
  refine ⟨?_, ?_, ?_⟩
  · rw [hsame.dead, hsame.contents]
    exact h.same
  · rw [hsame.dead]
    intro hdead
    refine (h.dead hdead).imp_right fun hno n hn => ?_
    obtain ⟨m, hm, -⟩ := hV n hn
    exact hno m hm
  · rw [hsame.cold]
    intro earliest he
    refine (h.cold earliest he).imp_right fun hle n hn => ?_
    obtain ⟨m, hm, hstep⟩ := hV n hn
    have := hle m hm
    omega

/-- A value that has just been written is neither thrown away nor chilled. -/
theorem MirrorsAt.fresh (hdead : t.dead.get g = false) (hcold : t.cold.get g = none)
    (hcontents : t.store.contents g = value) : t.MirrorsAt g V step value := by
  refine ⟨fun _ => hcontents, fun h => ?_, fun earliest h => ?_⟩
  · cases hdead.symm.trans h
  · cases hcold.symm.trans h

/-- Where there is no value, only what is held matters. -/
theorem MirrorsAt.gone (hcontents : t.store.contents g = none) : t.MirrorsAt g V step none :=
  ⟨fun _ => hcontents, fun _ => Or.inl rfl, fun _ _ => Or.inl rfl⟩

end At

/-- Something happens to `g` only. -/
theorem Mirrors.update {step' : Nat} (h : Mirrors T U step s t) (htable : t'.table = t.table) (htidy : t'.store.Tidy)
    (hg : g ≠ Group.sp → t'.MirrorsAt g (U' g) step' (s'.values.get g))
    (hvalues : ∀ x, g ≠ x → s'.values.get x = s.values.get x) (hsame : ∀ x, g ≠ x → SameAt t t' x)
    (hU : ∀ x, g ≠ x → x ≠ Group.sp → Nearer (U x) (U' x) step step') : Mirrors T U' step' s' t' := by
  refine ⟨htable.trans h.table_eq, htidy, fun x hx => ?_⟩
  by_cases hgx : g = x
  · subst hgx
    exact hg hx
  · rw [hvalues x hgx]
    exact (h.mirrors x hx).carry (hsame x hgx) (hU x hgx hx)

/-- Nothing happens at all. -/
theorem Mirrors.carry {step' : Nat} (h : Mirrors T U step s t)
    (hU : ∀ x, x ≠ Group.sp → Nearer (U x) (U' x) step step') : Mirrors T U' step' s t :=
  ⟨h.table_eq, h.tidy, fun x hx => (h.mirrors x hx).carry ⟨rfl, rfl, rfl⟩ (hU x hx)⟩

/-- Both stores are empty at the start. -/
theorem mirrors_new (T : HintTable) (U : Group → Nat → Prop) (step : Nat) :
    Mirrors T U step Direct.empty (Hinted.new T) := by
  refine ⟨rfl, Spilling.tidy_empty, fun g _ => .fresh (Cells.get_all ..) (Cells.get_all ..) ?_⟩
  simp [Hinted.new, Direct.empty, Spilling.contents_empty]

/-! ## Reads, changes and hints -/

/-- A value that can be used now is read as it is in the direct store. -/
theorem readFollows (hg : g ≠ Group.sp) (hU : U g 1) (bits : Nat) :
    Exec.ReadFollows (Mirrors T U step) step g bits := by
  intro s t v s' h hs
  obtain ⟨hval, rfl⟩ := Direct.read_eq_ok.1 hs
  have hat := h.mirrors g hg
  -- this very read is a use, and it is of a value that the direct store has
  have hdead : t.dead.get g = false := by
    rw [← Bool.not_eq_true]
    intro hdead
    rcases hat.dead hdead with hnone | hno
    · cases hnone.symm.trans hval
    · exact hno 1 hU
  obtain ⟨store, hread, htidy, hcontents⟩ := h.tidy.read ((hat.same hdead).trans hval)
  have hheld : store.contents g = s'.values.get g := (hcontents g).trans (hat.same hdead)
  simp only [RegisterStore.read, Hinted.read, hdead, Bool.false_eq_true, if_false]
  cases hcold : t.cold.get g with
  | none =>
    refine ⟨v, { t with store }, by rw [hread]; rfl, rfl, ?_⟩
    exact h.update rfl htidy (fun _ => .fresh hdead hcold hheld) (fun _ _ => rfl)
      (fun x _ => ⟨rfl, rfl, hcontents x⟩) fun x _ _ => .refl _ _
  | some earliest =>
    have hle : ¬ step < earliest := by
      rcases hat.cold earliest hcold with hnone | hle
      · cases hnone.symm.trans hval
      · have := hle 1 hU
        omega
    simp only [hle, if_false]
    refine ⟨v, { t with store, cold := t.cold.put g none }, by rw [hread]; rfl, rfl, ?_⟩
    exact h.update rfl htidy (fun _ => .fresh hdead (Cells.get_put_self ..) hheld) (fun _ _ => rfl)
      (fun x hx => ⟨rfl, Cells.get_put_of_ne _ hx _, hcontents x⟩) fun x _ _ => .refl _ _

/-- The change that an instruction makes. The values that it spares are one instruction nearer to their uses. -/
theorem changeFollows {i : Inst} {e : Edition} {vs : List UInt64} {sp : UInt64} {mem : Memory}
    (hU : ∀ g, g ≠ Group.sp → ¬ i.Ends g → ∀ n, U' g n → U g (n + 1)) (h : Mirrors T U step s t)
    (hs : (i.outcome vs sp mem).change.apply e s = .ok s') :
    ∃ t', (i.outcome vs sp mem).change.apply e t = .ok t' ∧ Mirrors T U' (step + 1) s' t' := by
  -- a group that the change leaves alone is not one that the instruction ends
  have hspared : ∀ x, x ≠ Group.sp → (i.outcome vs sp mem).change.operands.filter (·.ends x) = [] →
      Nearer (U x) (U' x) step (step + 1) := by
    intro x hx hnil n hn
    refine ⟨n + 1, hU x hx ?_ n hn, by omega⟩
    rw [Inst.ends_iff, i.ends_outcome vs sp mem hx, hnil]
    exact fun hne => hne rfl
  generalize (i.outcome vs sp mem).change = c at hs hspared
  cases c with
  | keep =>
    cases hs
    exact ⟨t, rfl, h.carry fun x hx => hspared x hx rfl⟩
  | assign r v =>
    obtain ⟨g, hg, rfl⟩ := map_eq_ok.1 hs
    obtain ⟨htidy, hcontents⟩ := h.tidy.write g (lowBits (e.bits r.width) v)
    refine ⟨_, map_eq_ok.2 ⟨g, hg, rfl⟩, h.update rfl htidy (fun _ => ?_) (fun x hx => Cells.get_put_of_ne _ hx _)
      (fun x hx => ⟨Cells.get_put_of_ne _ hx _, Cells.get_put_of_ne _ hx _, (hcontents x).trans (if_neg hx)⟩)
      fun x hx hsp => hspared x hsp ?_⟩
    · refine .fresh (Cells.get_put_self ..) (Cells.get_put_self ..) ?_
      exact ((hcontents g).trans (if_pos rfl)).trans (Cells.get_put_self ..).symm
    · simp [Change.operands, Operand.ends, Reg.group_eq_ok.1 hg, hx]
  | discard r =>
    obtain ⟨g, hg, rfl⟩ := map_eq_ok.1 hs
    obtain ⟨htidy, hcontents⟩ := h.tidy.discard g
    refine ⟨_, map_eq_ok.2 ⟨g, hg, rfl⟩, h.update rfl htidy (fun _ => ?_) (fun x hx => Cells.get_put_of_ne _ hx _)
      (fun x hx => ⟨rfl, rfl, (hcontents x).trans (if_neg hx)⟩) fun x hx hsp => hspared x hsp ?_⟩
    · rw [show (RegisterStore.discard g s).values.get g = none from Cells.get_put_self ..]
      exact .gone ((hcontents g).trans (if_pos rfl))
    · simp [Change.operands, Operand.ends, Reg.group_eq_ok.1 hg, hx]

/-- An entry that is not broken by any use. -/
theorem Mirrors.follow (h : Mirrors T U (step + 1) s t) {x : HintEntry} (hg : (Reg.gp x.idx .w64).group? = some g)
    (hx : ∀ n, U g n → x.nextUse.Allows n) :
    ∃ t', Hinted.follow step t x = .ok t' ∧ Mirrors T U (step + 1) s t' := by
  obtain ⟨cls, idx, next⟩ := x
  cases next with
  | never =>
    have hno : ∀ n, ¬ U g n := hx
    obtain ⟨htidy, hcontents⟩ := h.tidy.discard g
    refine ⟨_, bind_eq_ok.2 ⟨g, Reg.group_eq_ok.2 hg, rfl⟩, h.update rfl htidy (fun _ => ?_) (fun _ _ => rfl)
      (fun y hy => ⟨Cells.get_put_of_ne _ hy _, rfl, (hcontents y).trans (if_neg hy)⟩) fun y _ _ => .refl _ _⟩
    refine ⟨fun hdead => ?_, fun _ => Or.inr hno, fun _ _ => Or.inr fun n hn => absurd hn (hno n)⟩
    cases (Cells.get_put_self t.dead g true).symm.trans hdead
  | after d =>
    obtain ⟨htidy, hcontents⟩ := h.tidy.evict g
    refine ⟨_, bind_eq_ok.2 ⟨g, Reg.group_eq_ok.2 hg, rfl⟩, h.update rfl htidy (fun hsp => ?_) (fun _ _ => rfl)
      (fun y hy => ⟨rfl, Cells.get_put_of_ne _ hy _, hcontents y⟩) fun y _ _ => .refl _ _⟩
    have hat := h.mirrors g hsp
    -- the group may be dead already, from a hint further back: then it stays so
    refine ⟨fun hdead => (hcontents g).trans (hat.same hdead), hat.dead, fun earliest he => Or.inr fun n hn => ?_⟩
    cases (Cells.get_put_self t.cold g _).symm.trans he
    have hd : d.val ≤ n := hx n hn
    omega

/-- All entries of a hint, one after the other. -/
theorem Mirrors.foldlM_follow (h : Mirrors T U (step + 1) s t) {xs : List HintEntry}
    (hxs : ∀ x ∈ xs, ∃ g, (Reg.gp x.idx .w64).group? = some g ∧ ∀ n, U g n → x.nextUse.Allows n) :
    ∃ t', xs.foldlM (Hinted.follow step) t = .ok t' ∧ Mirrors T U (step + 1) s t' := by
  induction xs generalizing t with
  | nil => exact ⟨t, rfl, h⟩
  | cons x xs ih =>
    obtain ⟨g, hg, hx⟩ := hxs x (by simp)
    obtain ⟨t₁, ht₁, h₁⟩ := h.follow hg hx
    obtain ⟨t₂, ht₂, h₂⟩ := ih h₁ fun y hy => hxs y (by simp [hy])
    refine ⟨t₂, ?_, h₂⟩
    rw [List.foldlM_cons]
    exact bind_eq_ok.2 ⟨t₁, ht₁, ht₂⟩

end Hinted

/-! ## Runs -/

/-- No entry of the table is broken by a use path of the unit. -/
def HintTable.Sound (T : HintTable) (u : CompiledUnit) : Prop :=
  ∀ i h, T.hint? i = some h → ∀ x ∈ h.entries,
    ∃ g, (Reg.gp x.idx .w64).group? = some g ∧ ∀ n, u.UsedAt g i n → x.nextUse.Allows n

namespace CompiledUnit

open Hinted

variable {u : CompiledUnit} {T : HintTable} {step k : Nat} {c : Cursor}

/-- The direct machine and the one that follows `T`, just before instruction `k` of block `b`. -/
def Mirrored (u : CompiledUnit) (T : HintTable) (step : Nat) (s : MachineState Direct) (t : MachineState Hinted)
    (b k : Nat) : Prop :=
  s.Agree (Mirrors T (fun g => u.UseIn g b k) step) t

theorem edgewise_mirrored (step : Nat) (s : MachineState Direct) (t : MachineState Hinted) :
    u.Edgewise (u.Mirrored T step s t) := by
  intro b k d hk hd h
  exact ⟨h.regs.carry fun g _ n hn => ⟨n, .edge hk hd hn, Nat.le_refl _⟩, h.sp, h.mem, h.events⟩

/-- An instruction, and then the hint for it. -/
theorem Mirrored.perform (hT : T.Sound u) (hc : c.Stands u k) {s s' : MachineState Direct} {t : MachineState Hinted}
    {next : Next} (h : u.Mirrored T step s t c.block k) (hs : Run.perform u.edition step c s = .ok (next, s')) :
    ∃ t', Run.perform u.edition step c t = .ok (next, t') ∧ u.Mirrored T (step + 1) s' t' c.block (k + 1) := by
  refine Run.perform_follows (fun r hr g hg hsp => readFollows hsp (.read hc.at_inst ⟨r, hr, hg⟩) _)
    (fun vs sp mem s t s' hst => changeFollows (fun g _ hends n hn => .skip hc.at_inst hends hn) hst) ?_ h hs
  rintro s t s' hst hs
  cases hs
  change ∃ t', Hinted.afterInst step c.iidx t = .ok t' ∧ _
  rw [Hinted.afterInst, hst.table_eq, hc.iidx_eq]
  cases hhint : T.hint? (u.start c.block + k) with
  | none => exact ⟨t, rfl, hst⟩
  | some hint =>
    refine hst.foldlM_follow fun x hx => ?_
    obtain ⟨g, hg, hallows⟩ := hT _ hint hhint x hx
    exact ⟨g, hg, fun n hn => hallows n ((usedAt_iff_useIn hc.at_inst).mpr hn)⟩

/-- **A run that follows a sound table answers what the direct run does.** -/
theorem follows_sound (hu : u.Structured) (hT : T.Sound u) {ending : Ending} {s : MachineState Direct}
    (hs : (Run.ofUnit u Direct.empty).outcome = .ok (ending, s)) :
    ∃ t, (Run.ofUnit u (Hinted.new T)).outcome = .ok (ending, t) ∧ s.events = t.events := by
  have hstart : u.Mirrored T 1 ⟨Direct.empty, initialSp, [], []⟩ ⟨Hinted.new T, initialSp, [], []⟩ 0 0 :=
    ⟨mirrors_new T _ 1, rfl, rfl, rfl⟩
  obtain ⟨-, t, ht, -, step, b, k, h⟩ := Run.go_follows (I := fun _ => u.Mirrored T) hu (fun _ => edgewise_mirrored)
    (fun _ step c k s t next s' hc h hs => Mirrored.perform hT hc h hs)
    (here_enter (edgewise_mirrored _ _ _) ⟨0, 0, hstart⟩ fun _ => hstart) hs
  exact ⟨t, ht, h.events⟩

end CompiledUnit

/-! ## The chosen hints are sound -/

/-- A search finds a hint of the instruction. -/
theorem HintTable.bisect_some {hints : List Hint} {iidx fuel lo hi : Nat} {h : Hint}
    (hh : bisect hints iidx fuel lo hi = some h) : h ∈ hints ∧ h.iidx = iidx := by
  induction fuel generalizing lo hi with
  | zero => cases hh
  | succ fuel ih =>
    rw [bisect] at hh
    split at hh
    · simp only at hh
      split at hh
      · cases hh
      · rename_i h' hget
        split at hh
        · rename_i heq
          cases hh
          exact ⟨List.mem_of_getElem? hget, heq⟩
        · split at hh
          · exact ih hh
          · exact ih hh
    · cases hh

theorem HintTable.hint?_some {t : HintTable} {iidx : Nat} {h : Hint} (hh : t.hint? iidx = some h) :
    h ∈ t.hints ∧ h.iidx = iidx :=
  bisect_some hh

/-- A group has the registers of its number. -/
theorem Group.group?_gpIdx {g : Group} (hg : g ≠ Group.sp) : (Reg.gp (UInt8.ofNat g) .w64).group? = some g := by
  revert g
  decide

namespace UseRow

variable {row : UseRow} {d : Nat} {g : Group} {x : HintEntry}

/-- The entry of a group is about its number, and says when it is used next. -/
theorem entry?_eq_some_iff : row.entry? d g = some x ↔ row.holds.get g = true ∧
    (row.uses.get g).atLeast d = true ∧ g ≠ Group.sp ∧ x = ⟨.gp, UInt8.ofNat g, row.uses.get g⟩ := by
  simp only [ entry?, Option.ite_none_right_eq_some, Bool.and_eq_true, Option.map_eq_some_iff, Group.gpIdx?,
    Option.ite_none_left_eq_some, Option.some.injEq]
  constructor
  · rintro ⟨⟨hholds, hleast⟩, i, ⟨hsp, rfl⟩, rfl⟩
    exact ⟨hholds, hleast, hsp, rfl⟩
  · rintro ⟨hholds, hleast, hsp, rfl⟩
    exact ⟨⟨hholds, hleast⟩, _, ⟨hsp, rfl⟩, rfl⟩

theorem mem_entries_iff : x ∈ row.entries d ↔ ∃ g, row.entry? d g = some x := by
  rw [entries, List.mem_filterMap]
  refine exists_congr fun g => and_iff_right_of_imp fun hx => ?_
  obtain ⟨-, -, hsp, -⟩ := entry?_eq_some_iff.mp hx
  simp [Group.allGp, Group.all, hsp]

end UseRow

/-- The chosen hints are those of the rows, without the empty ones. -/
theorem NextUseTable.mem_hints_emit_iff {t : NextUseTable} {d : Nat} {h : Hint} : h ∈ (t.emit d).hints ↔
    ∃ row, t.rows[h.iidx]? = some row ∧ h.entries = row.entries d ∧ h.entries ≠ [] := by
  obtain ⟨i, xs⟩ := h
  simp only [emit, List.mem_filter, List.mem_map, Prod.exists, List.mem_zipIdx_iff_getElem?, Hint.mk.injEq,
    Bool.not_eq_true', List.isEmpty_eq_false_iff]
  constructor
  · rintro ⟨⟨row, j, hrow, rfl, rfl⟩, hne⟩
    exact ⟨row, hrow, rfl, hne⟩
  · rintro ⟨row, hrow, rfl, hne⟩
    exact ⟨⟨row, i, hrow, rfl, rfl⟩, hne⟩

namespace CompiledUnit

variable {u : CompiledUnit}

/-- **The hints that follow from the next uses of a valid unit are sound**, whatever the least distance. -/
theorem sound_emit (hv : u.validate = .ok ()) : ∃ t, u.analyse = .ok t ∧ ∀ d, (t.emit d).Sound u := by
  obtain ⟨hu, f, -, hf, htable⟩ := exists_flow_of_valid hv
  refine ⟨_, htable, fun d i h hh x hx => ?_⟩
  obtain ⟨hmem, rfl⟩ := HintTable.hint?_some hh
  obtain ⟨r, hr, hentries, -⟩ := NextUseTable.mem_hints_emit_iff.mp hmem
  rw [hentries] at hx
  obtain ⟨g, hg⟩ := UseRow.mem_entries_iff.mp hx
  obtain ⟨-, -, hsp, rfl⟩ := UseRow.entry?_eq_some_iff.mp hg
  refine ⟨g, Group.group?_gpIdx hsp, fun n hn => ?_⟩
  obtain ⟨-, -, ⟨b, k, hi, hk, -⟩, -⟩ := usedAt_iff.mp hn
  obtain ⟨inst, hat⟩ := exists_at_of_lt hk
  rw [hi] at hr hn
  cases (hf.getElem?_rows (b := ⟨b, hat.block_lt⟩) hat).symm.trans hr
  exact NextUse.allows_of_rank_le (hf.rank_row_le hu (b := ⟨b, hat.block_lt⟩) hat hn)

/-- **Hints are never seen from outside.** A valid unit runs to its end both without hints and with those that follow
from its next uses, for whatever least distance, and the same is seen of both runs. -/
theorem runHinted_eq_runDirect (u : CompiledUnit) (hv : u.validate = .ok ()) (d : Nat) :
    ∃ t events discards, u.analyse = .ok t ∧ u.runDirect = .ok events ∧
      u.runHinted (t.emit d) = .ok (events, discards) := by
  obtain ⟨t, htable, hsound⟩ := sound_emit hv
  obtain ⟨ending, s, hs⟩ := ofUnit_direct_ok hv
  obtain ⟨s', hs', hevents⟩ := follows_sound (structured_of_valid hv) (hsound d) hs
  refine ⟨t, s.events, s'.regs.discards, htable, ?_, ?_⟩
  · simp only [runDirect, Run.result, hs, Except.map]
  · simp only [runHinted, Run.result, hs', Except.map, hevents]

/-- The loop runs as if there were no hints when everything that can be chilled is. -/
theorem countdown_runHinted : countdown.validate = .ok () ∧ ∃ t events discards, countdown.analyse = .ok t ∧
    countdown.runDirect = .ok events ∧ countdown.runHinted (t.emit 0) = .ok (events, discards) :=
  ⟨by decide +kernel, runHinted_eq_runDirect countdown (by decide +kernel) 0⟩

end CompiledUnit

end ChillHints
