import ChillHints.Proofs.NextUse

/-!
# What may be held is exact

Whether a group holds a value at the end of a path is decided by the last write or drop on it (`held`). The analysis of
what may be held computes just that along a sequence of instructions (`Holds.get_foldl_after`), and where paths meet it
takes what is held on any of them (`get_entryHolds`).

The states at the ends of the blocks are found by sweeps that start with nothing held. A sweep only adds groups, so the
sweeps end (`exitHolds_fixed`). At the end

* every group that is said to be held is founded: some path leaves a value in it (`Founded`);
* whatever a path leaves is found (`entryHolds_of_arrives`).

So after every instruction the table tells exactly which groups some path leaves with a value
(`analyse_mayHold_exact`). A block that cannot be reached has one path only, which begins at the block, with nothing
held.
-/

namespace ChillHints

/-! ## The last write or drop -/

/-- Does `g` hold a value after the instructions `h`? If it is neither written nor dropped, it does as it did before. -/
def held (g : Group) (before : Bool) (h : List Inst) : Bool :=
  ((endings g h).getLast?.map (·.role == .write)).getD before

theorem held_nil (g : Group) (before : Bool) : held g before [] = before := rfl

/-- A path in two parts. -/
theorem held_append (g : Group) (before : Bool) (h h' : List Inst) :
    held g before (h ++ h') = held g (held g before h) h' := by
  simp only [held, endings, List.flatMap_append, List.filter_append, List.getLast?_append]
  cases ((h'.flatMap Inst.operands).filter (·.ends g)).getLast? <;> rfl

/-- A value that is held before a path can only help. -/
theorem held_mono {g : Group} {x y : Bool} (hxy : x = true → y = true) {h : List Inst} (hx : held g x h = true) :
    held g y h = true := by
  unfold held at hx ⊢
  cases hlast : (endings g h).getLast? with
  | none =>
    rw [hlast] at hx
    exact hxy hx
  | some op =>
    rw [hlast] at hx
    exact hx

/-- What is written is held, however wide the write was. -/
theorem isSome_written (e : Edition) (g : Group) (start : Option Nat) (h : List Inst) :
    (written e g start h).isSome = held g start.isSome h := by
  unfold written held
  cases (endings g h).getLast? with
  | none => rfl
  | some op =>
    simp only [Option.map_some, Option.getD_some, Operand.brings]
    split <;> simp_all

/-! ## Along a sequence of instructions -/

namespace Holds

/-- The groups that are written at all. -/
def ofDefs (d : Defs) : Holds := .tabulate fun g => (d.get g).isSome

theorem get_ofDefs (d : Defs) (g : Group) : (ofDefs d).get g = (d.get g).isSome := Cells.get_tabulate _ g

/-- Every state is that of some writes. -/
theorem exists_eq_ofDefs (s : Holds) : ∃ d, ofDefs d = s := by
  refine ⟨.tabulate fun g => if s.get g then some 0 else none, Cells.ext_get fun g => ?_⟩
  rw [get_ofDefs, Cells.get_tabulate]
  cases s.get g <;> rfl

theorem access_ofDefs (d : Defs) (a : Access) : (ofDefs d).access a = ofDefs (d.access a) := by
  apply Cells.ext_get
  intro g
  rw [get_ofDefs]
  unfold access Defs.access
  cases a.role with
  | read => exact get_ofDefs d g
  | write =>
    simp only [Cells.get_put, get_ofDefs]
    split <;> rfl
  | drop =>
    simp only [Cells.get_put, get_ofDefs]
    split <;> rfl

theorem foldl_after_ofDefs (code : List (List Access)) (d : Defs) :
    code.foldl after (ofDefs d) = ofDefs (code.foldl Defs.after d) :=
  List.foldl_hom ofDefs fun _ _ => List.foldl_hom ofDefs access_ofDefs

/-- **The computed state is what the last write or drop leaves.** -/
theorem get_foldl_after (e : Edition) (h : List Inst) (s : Holds) (g : Group) :
    ((h.map (Inst.accesses e)).foldl after s).get g = held g (s.get g) h := by
  obtain ⟨d, rfl⟩ := exists_eq_ofDefs s
  rw [foldl_after_ofDefs, get_ofDefs, Defs.get_foldl_after, isSome_written, get_ofDefs]

/-- Where paths meet. -/
theorem get_foldl_join {n : Nat} (outs : Cells n Holds) (ps : List (Fin n)) (s : Holds) (g : Group) :
    (ps.foldl (fun s p => s.join (outs.get p)) s).get g = true ↔
      s.get g = true ∨ ∃ p ∈ ps, (outs.get p).get g = true := by
  induction ps generalizing s with
  | nil => simp
  | cons p ps ih =>
    rw [List.foldl_cons, ih, join, Cells.get_tabulate, Bool.or_eq_true, List.exists_mem_cons_iff, or_assoc]

/-- The position in the order in which a value that is held comes first. -/
def rank (x : Bool) : Nat := if x then 0 else 1

theorem rank_le_iff {x y : Bool} : rank x ≤ rank y ↔ (y = true → x = true) := by
  cases x <;> cases y <;> decide

theorem rank_inj {x y : Bool} (h : rank x = rank y) : x = y := by
  revert h
  cases x <;> cases y <;> decide

/-- Whatever `t` holds, `s` holds as well. -/
abbrev Le : Holds → Holds → Prop := Below fun x y => rank x ≤ rank y

end Holds

/-! ## The sweeps end -/

namespace CompiledUnit

variable {u : CompiledUnit} {f : Flow u.size} {g : Group} {b : Fin u.size} {outs : Cells u.size Holds}

/-- What is held on entry to block `b`, where `outs` is held at the ends of the blocks. -/
theorem get_entryHolds : (f.entryHolds b outs).get g = true ↔ f.reached.get b = true ∧
    (b.val = 0 ∧ g = Group.sp ∨ ∃ p, (f.graph.Edge p b ∧ f.reached.get p = true) ∧ (outs.get p).get g = true) := by
  have hstart : (if b.val = 0 then Holds.atEntry else Holds.nothing).get g = true ↔ b.val = 0 ∧ g = Group.sp := by
    split
    · rename_i hb
      rw [Holds.atEntry, Cells.get_put, Holds.nothing, Cells.get_all]
      simp [hb, eq_comm]
    · rename_i hb
      rw [Holds.nothing, Cells.get_all]
      simp [hb]
  unfold Flow.entryHolds
  split
  · rename_i hr
    simp only [Holds.get_foldl_join, hstart, hr, true_and, Flow.mem_livePreds]
  · rename_i hr
    rw [Holds.nothing, Cells.get_all]
    simp [hr]

theorem IsFlow.get_exitHoldsOf (hf : u.IsFlow f) :
    (f.exitHoldsOf b outs).get g = held g ((f.entryHolds b outs).get g) (u.blockAt b) := by
  rw [Flow.exitHoldsOf, hf.code, Holds.get_foldl_after]

/-- A path to block `b`, and the instructions `h` from there on, leave a value in `g`. -/
inductive Leaves (u : CompiledUnit) (g : Group) (b : Nat) (h : List Inst) : Prop
  | path {h' : List Inst} : u.Arrives b h' → held g (g == Group.sp) (h' ++ h) = true → Leaves u g b h
  | alone : (∀ h', ¬ u.Arrives b h') → held g false h = true → Leaves u g b h

/-- Every group that is held at the end of block `b` is on some path. -/
def Founded (u : CompiledUnit) (b : Fin u.size) (s : Holds) : Prop := ∀ g, s.get g = true → u.Leaves g b (u.blockAt b)

/-- What is held on entry to a block that can be reached is left there by some path. -/
theorem IsFlow.exists_arrives (hf : u.IsFlow f) (houts : ∀ c, u.Founded c (outs.get c)) (hb : f.reached.get b = true)
    (g : Group) :
    ∃ h, u.Arrives b h ∧ ((f.entryHolds b outs).get g = true → held g (g == Group.sp) h = true) := by
  by_cases hentry : (f.entryHolds b outs).get g = true
  · rcases (get_entryHolds.mp hentry).2 with ⟨h0, rfl⟩ | ⟨p, ⟨hedge, hp⟩, hout⟩
    · exact ⟨[], h0 ▸ .entry, fun _ => rfl⟩
    · cases houts p g hout with
      | path harr hheld => exact ⟨_, .edge harr ((hf.edge p b).mp hedge), fun _ => hheld⟩
      | alone hno _ =>
        obtain ⟨h, harr⟩ := (hf.reached p).mp hp
        exact absurd harr (hno h)
  · obtain ⟨h, harr⟩ := (hf.reached b).mp hb
    exact ⟨h, harr, fun h => absurd h hentry⟩

/-- So is what is held some instructions later. -/
theorem IsFlow.leaves_of_held (hf : u.IsFlow f) (houts : ∀ c, u.Founded c (outs.get c)) {h : List Inst}
    (hheld : held g ((f.entryHolds b outs).get g) h = true) : u.Leaves g b h := by
  by_cases hb : f.reached.get b = true
  · obtain ⟨h', harr, hentry⟩ := hf.exists_arrives houts hb g
    refine .path harr ?_
    rw [held_append]
    exact held_mono hentry hheld
  · refine .alone (fun h' harr => hb ((hf.reached b).mpr ⟨h', harr⟩)) (held_mono (fun hentry => ?_) hheld)
    exact absurd (get_entryHolds.mp hentry).1 hb

/-- Computing states anew adds groups. -/
theorem IsFlow.descent_holds (hf : u.IsFlow f) :
    Descent f.exitHoldsOf Holds.Le (Founded u) (weigh Holds.rank) where
  refl s g := Nat.le_refl _
  trans hst htu g := Nat.le_trans (hst g) (htu g)
  mono b v v' h g := by
    refine Holds.rank_le_iff.mpr ?_
    rw [hf.get_exitHoldsOf, hf.get_exitHoldsOf]
    refine held_mono fun hentry => get_entryHolds.mpr ?_
    obtain ⟨hb, hin⟩ := get_entryHolds.mp hentry
    refine ⟨hb, hin.imp_right ?_⟩
    rintro ⟨p, hp, hout⟩
    exact ⟨p, hp, Holds.rank_le_iff.mp (h p g) hout⟩
  keeps b v hv g hg := hf.leaves_of_held hv (hf.get_exitHoldsOf.symm.trans hg)
  strict b s t _ h hne := weigh_rank_lt Holds.rank_inj h hne

theorem get_all_nothing {n : Nat} (b : Fin n) (g : Group) :
    ((Cells.all Holds.nothing : Cells n Holds).get b).get g = false := by
  rw [Cells.get_all, Holds.nothing, Cells.get_all]

/-- Where nothing is held, groups can only be added. -/
theorem falls_nothing (u : CompiledUnit) (f : Flow u.size) :
    Descent.Falls f.exitHoldsOf Holds.Le (Founded u) (.all Holds.nothing) where
  ok b g hg := by rw [get_all_nothing] at hg; cases hg
  below b g := Holds.rank_le_iff.mpr fun hg => by rw [get_all_nothing] at hg; cases hg

/-- **The sweeps end, with states that are fixed and backed by paths.** -/
theorem IsFlow.exitHolds_fixed (hf : u.IsFlow f) : (∀ b, f.exitHoldsOf b f.exitHolds = f.exitHolds.get b) ∧
    ∀ b, u.Founded b (f.exitHolds.get b) := by
  obtain ⟨v, hloop, hfix, hok⟩ := hf.descent_holds.loop_sweepStep (falls_nothing u f) (B := 16 * 1)
    (fun b => weigh_le fun g => by rw [get_all_nothing]; decide)
  have heq : f.exitHolds = v := by
    simp only [Flow.exitHolds, hloop, Option.getD_some]
  rw [heq]
  exact ⟨hfix, hok⟩

/-- **What a path leaves at the start of a block is found.** -/
theorem IsFlow.entryHolds_of_arrives (hf : u.IsFlow f) (hu : u.Structured) {b : Nat} {h : List Inst}
    (hb : u.Arrives b h) (hlt : b < u.size) (hheld : held g (g == Group.sp) h = true) :
    (f.entryHolds ⟨b, hlt⟩ f.exitHolds).get g = true := by
  induction hb with
  | entry => exact get_entryHolds.mpr ⟨(hf.reached _).mpr ⟨[], .entry⟩, Or.inl ⟨rfl, by simpa [held_nil] using hheld⟩⟩
  | @edge p c h hp hc ih =>
    have hplt := hp.lt hu
    refine get_entryHolds.mpr ⟨(hf.reached _).mpr ⟨_, .edge hp hc⟩, Or.inr ⟨⟨p, hplt⟩, ⟨?_, ?_⟩, ?_⟩⟩
    · exact (hf.edge _ _).mpr hc
    · exact (hf.reached _).mpr ⟨h, hp⟩
    · rw [← hf.exitHolds_fixed.1, hf.get_exitHoldsOf]
      rw [held_append] at hheld
      exact held_mono (ih hplt) hheld

/-! ## After every instruction -/

/-- **After an instruction, just what some path leaves is held.** -/
theorem IsFlow.holdsAt_exact (hf : u.IsFlow f) (hu : u.Structured) (b : Fin u.size) (k : Nat) (g : Group) :
    (f.holdsAt b k).get g = true ↔ u.Leaves g b ((u.blockAt b).take (k + 1)) := by
  have hget : (f.holdsAt b k).get g =
      held g ((f.entryHolds b f.exitHolds).get g) ((u.blockAt b).take (k + 1)) := by
    rw [Flow.holdsAt, hf.code, ← List.map_take, Holds.get_foldl_after]
  rw [hget]
  refine ⟨hf.leaves_of_held hf.exitHolds_fixed.2, fun hleaves => ?_⟩
  cases hleaves with
  | path harr hheld =>
    rw [held_append] at hheld
    exact held_mono (hf.entryHolds_of_arrives hu harr b.isLt) hheld
  | alone _ hheld => exact held_mono (fun h => by cases h) hheld

/-- **The table tells exactly what may be held.** After an instruction of a valid unit, a group may hold a value just if
on some path from the start of the unit the last write or drop up to and with the instruction is a write, where the
stack pointer counts as written at the start; in a block that cannot be reached, if that is so from the start of the
block. -/
theorem analyse_mayHold_exact (u : CompiledUnit) (hv : u.validate = .ok ()) : ∃ t, u.analyse = .ok t ∧
    ∀ i < u.insts.length, ∃ b k inst, i = u.start b + k ∧ u.At b k inst ∧
      ∀ g : Group, ∃ holds, t.mayHold i g = .ok holds ∧ (holds = true ↔
        (∃ h, u.Arrives b h ∧ held g (g == Group.sp) (h ++ (u.blockAt b).take (k + 1)) = true) ∨
        (∀ h, ¬ u.Arrives b h) ∧ held g false ((u.blockAt b).take (k + 1)) = true) := by
  obtain ⟨hu, f, -, hf, htable⟩ := exists_flow_of_valid hv
  refine ⟨_, htable, fun i hi => ?_⟩
  obtain ⟨b, k, inst, rfl, hat⟩ := exists_at hi
  refine ⟨b, k, inst, rfl, hat, fun g => ⟨(f.holdsAt ⟨b, hat.block_lt⟩ k).get g, ?_, ?_⟩⟩
  · have hrow := hf.getElem?_rows (b := ⟨b, hat.block_lt⟩) hat
    simp only [NextUseTable.mayHold, hrow, Group.ofNat, g.isLt, dif_pos]
    rfl
  · rw [hf.holdsAt_exact hu]
    constructor
    · intro hleaves
      cases hleaves with
      | path harr hheld => exact Or.inl ⟨_, harr, hheld⟩
      | alone hno hheld => exact Or.inr ⟨hno, hheld⟩
    · rintro (⟨h, harr, hheld⟩ | ⟨hno, hheld⟩)
      · exact .path harr hheld
      · exact .alone hno hheld

/-- A loop through the entry that drops what it has written, and a block that no path goes to. -/
def bypass : CompiledUnit where
  name := "bypass"
  edition := .e0
  blocks := [
    [.const (.gp 0 .w64) 1, .br 2],
    [.const (.gp 1 .w8) 2, .drop (.gp 1 .w64)],
    [.drop (.gp 0 .w64), .const (.gp 2 .w32) 3, .br 0]]
  blocks_ne_nil := by decide

/-- In the loop, `r2` may be held at the start on the way back, and `r0` is dropped before. -/
theorem bypass_mayHold_exact : bypass.validate = .ok () ∧ ∃ t, bypass.analyse = .ok t ∧
    ∀ i < bypass.insts.length, ∃ b k inst, i = bypass.start b + k ∧ bypass.At b k inst ∧
      ∀ g : Group, ∃ holds, t.mayHold i g = .ok holds ∧ (holds = true ↔
        (∃ h, bypass.Arrives b h ∧ held g (g == Group.sp) (h ++ (bypass.blockAt b).take (k + 1)) = true) ∨
        (∀ h, ¬ bypass.Arrives b h) ∧ held g false ((bypass.blockAt b).take (k + 1)) = true) :=
  ⟨by decide +kernel, analyse_mayHold_exact bypass (by decide +kernel)⟩

end CompiledUnit

end ChillHints
