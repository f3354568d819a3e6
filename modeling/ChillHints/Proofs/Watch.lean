import ChillHints.Proofs.Container
import ChillHints.Proofs.Hinted
import ChillHints.Proofs.Point

/-!
# What a run that follows hints watches over

The store marks a group when it follows an entry about it: as dead, or as cold until the step that the entry names. A
read of a dead group is a fault, and so is a read of a cold group before that step. The marks of a group stay until it
is read or written (`Watches.perform`), except for one thing: a later entry about the group names its own step in
place of the one before. If that is an earlier step, the store has forgotten what the first entry said (`Eclipses`).

So in a run that does not break off, the first read after an entry is of a value that was not thrown away, and it does
not come before the named step, unless a later entry has eclipsed that one (`runHinted_obeys`). That happens in
`chilledTwice_forgets`.
-/

namespace ChillHints

/-- A register of `g` is written. -/
def Inst.Writes (i : Inst) (g : Group) : Prop := ∃ op ∈ i.operands, op.role = .write ∧ op.reg.group? = some g

instance (i : Inst) (g : Group) : Decidable (i.Writes g) := inferInstanceAs (Decidable (∃ op ∈ i.operands, _))

/-- The first step at which a value may be read, if this is its next use after `step`. -/
def NextUse.readableFrom (nu : NextUse) (step : Nat) : Option Nat := nu.dist?.map (step + ·)

/-- Following the entry acts on `g`. -/
def HintEntry.ActsOn (x : HintEntry) (g : Group) : Prop := (Reg.gp x.idx .w64).group? = some g

instance (x : HintEntry) (g : Group) : Decidable (x.ActsOn g) := inferInstanceAs (Decidable (_ = some g))

/-- Followed after `step`, the entry names a step before `earliest` for `g`. -/
def HintEntry.Eclipses (x : HintEntry) (g : Group) (step earliest : Nat) : Prop :=
  x.ActsOn g ∧ ∃ n, x.nextUse.readableFrom step = some n ∧ n < earliest

/-- The entries of the hint of the instruction at `iidx`. -/
def HintTable.entriesAt (T : HintTable) (iidx : Nat) : List HintEntry := ((T.hint? iidx).map Hint.entries).getD []

/-! ## The marks of a group -/

namespace Hinted

variable {T : HintTable} {g x : Group} {bound : Option Nat} {step : Nat} {s s' : Hinted} {e : Edition}

/-- The marks of `g` do not let it be read before step `bound`, or at all if there is none. -/
def Guards (s : Hinted) (g : Group) : Option Nat → Prop
  | none => s.dead.get g = true
  | some n => s.dead.get g = true ∨ ∃ earliest, s.cold.get g = some earliest ∧ n ≤ earliest

/-- The marks of `g` are what they were. -/
structure SameMarks (g : Group) (s s' : Hinted) : Prop where
  dead : s'.dead.get g = s.dead.get g
  cold : s'.cold.get g = s.cold.get g

theorem Guards.carry (h : s.Guards g bound) (hsame : SameMarks g s s') : s'.Guards g bound := by
  cases bound with
  | none => exact hsame.dead.trans h
  | some n =>
    simp only [Guards, hsame.dead, hsame.cold]
    exact h

theorem Guards.of_dead (h : s.dead.get g = true) : s.Guards g bound := by
  cases bound with
  | none => exact h
  | some n => exact Or.inl h

/-- A read that is answered is of a group that is not dead, and is not too early. It changes the marks of that group
alone. -/
theorem read_marks {v : UInt64} (hs : read step x s = .ok (v, s')) : s'.table = s.table ∧
    (∀ g, x ≠ g → SameMarks g s s') ∧ s.dead.get x = false ∧
      ∀ earliest, s.cold.get x = some earliest → earliest ≤ step := by
  unfold read at hs
  split at hs
  · cases hs
  · rename_i hdead
    rw [Bool.not_eq_true] at hdead
    split at hs
    · rename_i earliest hcold
      split at hs
      · cases hs
      · rename_i hle
        obtain ⟨⟨_, store⟩, -, hs⟩ := map_eq_ok.1 hs
        cases hs
        refine ⟨rfl, fun g hg => ⟨rfl, Cells.get_put_of_ne _ hg _⟩, hdead, fun earliest' h => ?_⟩
        cases hcold.symm.trans h
        exact Nat.le_of_not_lt hle
    · rename_i hcold
      obtain ⟨⟨_, store⟩, -, hs⟩ := map_eq_ok.1 hs
      cases hs
      refine ⟨rfl, fun g _ => ⟨rfl, rfl⟩, hdead, fun earliest h => ?_⟩
      cases hcold.symm.trans h

/-- **A read of a guarded group is answered only when its time has come.** -/
theorem Guards.of_read (h : s.Guards g bound) {v : UInt64} (hs : read step g s = .ok (v, s')) :
    ∃ n, bound = some n ∧ n ≤ step := by
  obtain ⟨-, -, hdead, hcold⟩ := read_marks hs
  cases bound with
  | none => cases hdead.symm.trans h
  | some n =>
    rcases h with h | ⟨earliest, hearliest, hle⟩
    · cases hdead.symm.trans h
    · exact ⟨n, rfl, Nat.le_trans hle (hcold earliest hearliest)⟩

/-- A change leaves alone the marks of a group that it does not write. -/
theorem apply_marks {c : Change} (hs : c.apply e s = .ok s') : s'.table = s.table ∧
    ((∀ op ∈ c.operands, op.role = .write → op.reg.group? ≠ some g) → SameMarks g s s') := by
  cases c with
  | keep =>
    cases hs
    exact ⟨rfl, fun _ => ⟨rfl, rfl⟩⟩
  | assign r v =>
    obtain ⟨y, hy, rfl⟩ := map_eq_ok.1 hs
    refine ⟨rfl, fun hc => ?_⟩
    have hne : y ≠ g := by
      rintro rfl
      exact hc ⟨.write, r⟩ (List.mem_singleton_self _) rfl (Reg.group_eq_ok.1 hy)
    exact ⟨Cells.get_put_of_ne _ hne _, Cells.get_put_of_ne _ hne _⟩
  | discard r =>
    obtain ⟨y, hy, rfl⟩ := map_eq_ok.1 hs
    exact ⟨rfl, fun _ => ⟨rfl, rfl⟩⟩

/-- An entry changes the marks of its group alone: they guard it as the entry says, and as they did before unless that
is eclipsed. -/
theorem follow_marks {y : HintEntry} (hs : follow step s y = .ok s') : s'.table = s.table ∧
    (y.ActsOn g → s'.Guards g (y.nextUse.readableFrom step)) ∧
      ∀ bound, s.Guards g bound → (∀ n, bound = some n → ¬ y.Eclipses g step n) → s'.Guards g bound := by
  obtain ⟨x, hx, hs⟩ := bind_eq_ok.1 hs
  have hacts : y.ActsOn g ↔ x = g := by rw [HintEntry.ActsOn, Reg.group_eq_ok.1 hx, Option.some.injEq]
  simp only [HintEntry.Eclipses, hacts]
  cases hnext : y.nextUse with
  | never =>
    rw [hnext] at hs
    cases hs
    refine ⟨rfl, ?_, fun bound h _ => ?_⟩
    · rintro rfl
      exact Cells.get_put_self ..
    · by_cases hxg : x = g
      · subst hxg
        exact .of_dead (Cells.get_put_self ..)
      · exact h.carry ⟨Cells.get_put_of_ne _ hxg _, rfl⟩
  | after d =>
    rw [hnext] at hs
    cases hs
    have hself := Cells.get_put_self s.cold x (some (step + d.val))
    refine ⟨rfl, ?_, fun bound h heclipses => ?_⟩
    · rintro rfl
      exact Or.inr ⟨_, hself, Nat.le_refl _⟩
    · by_cases hxg : x = g
      · subst hxg
        cases bound with
        | none => exact h
        | some n =>
          refine Or.inr ⟨_, hself, Nat.le_of_not_lt fun hlt => ?_⟩
          exact heclipses n rfl ⟨rfl, _, rfl, hlt⟩
      · exact h.carry ⟨rfl, Cells.get_put_of_ne _ hxg _⟩

/-! ## Entries, instructions and points -/

/-- What every entry of a list keeps, following all of them keeps. -/
theorem foldlM_follow_keeps {P : Hinted → Prop} {ys : List HintEntry}
    (hP : ∀ y ∈ ys, ∀ s s', P s → follow step s y = .ok s' → P s') (h : P s)
    (hs : ys.foldlM (follow step) s = .ok s') : P s' := by
  induction ys generalizing s with
  | nil =>
    cases hs
    exact h
  | cons y ys ih =>
    rw [List.foldlM_cons] at hs
    obtain ⟨s₁, hs₁, hs⟩ := bind_eq_ok.1 hs
    exact ih (fun z hz => hP z (List.mem_cons_of_mem y hz)) (hP y (by simp) _ _ h hs₁) hs

/-- After an instruction, the entries for it are followed. -/
theorem afterInst_eq (step iidx : Nat) (s : Hinted) :
    RegisterStore.afterInst step iidx s = (s.table.entriesAt iidx).foldlM (follow step) s := by
  change afterInst step iidx s = _
  rw [afterInst, HintTable.entriesAt]
  cases s.table.hint? iidx <;> rfl

theorem foldlM_follow_table {ys : List HintEntry} (hs : ys.foldlM (follow step) s = .ok s') : s'.table = s.table :=
  foldlM_follow_keeps (P := fun t => t.table = s.table)
    (fun _ _ _ _ ht ht' => (follow_marks (g := 0) ht').1.trans ht) rfl hs

/-- The store follows `T` and guards `g`. -/
structure Watches (T : HintTable) (g : Group) (bound : Option Nat) (s : Hinted) : Prop where
  table_eq : s.table = T
  guards : s.Guards g bound

/-- Entries that eclipse nothing leave the watch as it is. -/
theorem Watches.foldlM_follow {ys : List HintEntry} (h : s.Watches T g bound)
    (hys : ∀ y ∈ ys, ∀ n, bound = some n → ¬ y.Eclipses g step n) (hs : ys.foldlM (follow step) s = .ok s') :
    s'.Watches T g bound := by
  refine foldlM_follow_keeps (fun y hy t t' ht ht' => ?_) h hs
  obtain ⟨htable, -, hguards⟩ := follow_marks (g := g) ht'
  exact ⟨htable.trans ht.table_eq, hguards bound ht.guards (hys y hy)⟩

/-- No instruction changes which table is followed. -/
theorem perform_table {c : Cursor} {t t' : MachineState Hinted} {next : Next}
    (ht : Run.perform e step c t = .ok (next, t')) : t'.regs.table = t.regs.table := by
  refine (Run.perform_keeps (P := (·.table = t.regs.table)) (Q := (·.table = t.regs.table))
    (R := (·.table = t.regs.table)) (fun _ _ _ _ _ _ _ _ h hs => (read_marks hs).1.trans h)
    (fun _ _ _ _ _ h hs => (apply_marks (g := 0) hs).1.trans h) (fun s s' h hs => ?_) rfl ht).1
  rw [afterInst_eq] at hs
  exact (foldlM_follow_table hs).trans h

/-- **The watch over a group stays** when an instruction neither reads nor writes it and no entry eclipses it. -/
theorem Watches.perform {c : Cursor} {t t' : MachineState Hinted} {next : Next} (h : t.regs.Watches T g bound)
    (hreads : ¬ c.inst.Reads g) (hwrites : ¬ c.inst.Writes g)
    (hentries : ∀ y ∈ T.entriesAt c.iidx, ∀ n, bound = some n → ¬ y.Eclipses g step n)
    (ht : Run.perform e step c t = .ok (next, t')) : t'.regs.Watches T g bound := by
  refine (Run.perform_keeps (P := Watches T g bound) (Q := Watches T g bound) ?_ ?_ ?_ h ht).1
  · intro r hr x hx _ s v s' h hs
    have hne : x ≠ g := by
      rintro rfl
      exact hreads ⟨r, hr, hx⟩
    obtain ⟨htable, hmarks, -⟩ := read_marks hs
    exact ⟨htable.trans h.table_eq, h.guards.carry (hmarks g hne)⟩
  · intro vs sp mem s s' h hs
    obtain ⟨htable, hmarks⟩ := apply_marks hs
    refine ⟨htable.trans h.table_eq, h.guards.carry (hmarks fun op hop hrole hg => ?_)⟩
    exact hwrites ⟨op, Inst.mem_operands_of_change hop, hrole, hg⟩
  · intro s s' h hs
    rw [afterInst_eq, h.table_eq] at hs
    exact h.foldlM_follow hentries hs

/-- **An instruction that reads a guarded group is executed only when its time has come.** -/
theorem Watches.of_reads {c : Cursor} {t t' : MachineState Hinted} {next : Next} (h : t.regs.Watches T g bound)
    (hg : g ≠ Group.sp) (hread : c.inst.Reads g) (ht : Run.perform e step c t = .ok (next, t')) :
    ∃ n, bound = some n ∧ n ≤ step := by
  -- once `g` has been read the watch is over, but then its time has come
  have hkeeps : ∀ x s v s', (s.Guards g bound ∨ ∃ n, bound = some n ∧ n ≤ step) → read step x s = .ok (v, s') →
      s'.Guards g bound ∨ ∃ n, bound = some n ∧ n ≤ step := by
    intro x s v s' hs hok
    by_cases hx : x = g
    · rw [hx] at hok
      exact Or.inr (hs.elim (·.of_read hok) id)
    · exact hs.imp_left (·.carry ((read_marks hok).2.1 g hx))
  obtain ⟨-, hreads⟩ := Run.perform_keeps (Q := fun _ => True) (R := fun _ => True)
    (fun _ _ x _ _ => hkeeps x) (fun _ _ _ _ _ _ _ => trivial) (fun _ _ _ _ => trivial) (Or.inl h.guards) ht
  obtain ⟨r, hr, hrg⟩ := hread
  obtain ⟨s, v, s', hs, hok⟩ := hreads r hr g hrg hg
  exact hs.elim (·.of_read hok) id

end Hinted

/-! ## Runs -/

namespace CompiledUnit

open Hinted

variable {u : CompiledUnit} {T : HintTable} {g : Group} {bound : Option Nat} {p : Point Hinted}

/-- The position of the instruction that is executed as step number `step` when the hints of `T` are followed, and the
instruction. -/
def executed (u : CompiledUnit) (T : HintTable) (step : Nat) : Option (Nat × Inst) :=
  if step = 0 then none
  else (Run.ofUnit u (Hinted.new T)).trail[step - 1]?.bind fun site =>
    u.insts[site.iidx]?.map fun inst => (site.iidx, inst)

theorem Passes.executed_eq (hp : u.Passes (Hinted.new T) p) :
    u.executed T p.step = some (p.cursor.iidx, p.cursor.inst) := by
  obtain ⟨hpos, hsite⟩ := hp.getElem?_trail
  obtain ⟨k, hc⟩ := hp.sits
  simp [executed, Nat.ne_of_gt hpos, hsite, Cursor.site, hc.getElem?_insts]

theorem exists_site_of_executed {step : Nat} {done : Nat × Inst} (h : u.executed T step = some done) :
    0 < step ∧ ∃ site, (Run.ofUnit u (Hinted.new T)).trail[step - 1]? = some site := by
  unfold executed at h
  split at h
  · cases h
  · rename_i hne
    obtain ⟨site, hsite, -⟩ := Option.bind_eq_some_iff.1 h
    exact ⟨Nat.pos_of_ne_zero hne, site, hsite⟩

section Completed

variable {r : Ending × MachineState Hinted} (hok : (Run.ofUnit u (Hinted.new T)).outcome = .ok r)
include hok

/-- What is executed is executed at a point. -/
theorem exists_passes_of_executed {step : Nat} {done : Nat × Inst} (h : u.executed T step = some done) :
    ∃ p, u.Passes (Hinted.new T) p ∧ p.step = step ∧ (p.cursor.iidx, p.cursor.inst) = done := by
  obtain ⟨hpos, site, hsite⟩ := exists_site_of_executed h
  obtain ⟨p, hp, hstep, -⟩ := exists_passes hok hsite
  have hstep : p.step = step := by omega
  rw [← hstep, hp.executed_eq] at h
  exact ⟨p, hp, hstep, Option.some.inj h⟩

/-- If something is executed further on, there is a next point. -/
theorem Passes.exists_succ_of_executed (hp : u.Passes (Hinted.new T) p) {t : Nat} {done : Nat × Inst}
    (h : u.executed T t = some done) (hlt : p.step < t) : ∃ q, u.Passes (Hinted.new T) q ∧ p.Succ u q := by
  obtain ⟨-, site, hsite⟩ := exists_site_of_executed h
  have hlen : p.step < (Run.ofUnit u (Hinted.new T)).trail.length := by
    have := (List.getElem?_eq_some_iff.1 hsite).1
    omega
  obtain ⟨q, hq, hsucc, -⟩ := hp.exists_succ hok (List.getElem?_eq_getElem hlen)
  exact ⟨q, hq, hsucc⟩

/-- **The watch over a group lasts until the group is read**, and then its time has come. -/
theorem Passes.of_watches (hg : g ≠ Group.sp) (hp : u.Passes (Hinted.new T) p)
    (hwatches : p.state.regs.Watches T g bound) {t j : Nat} {inst : Inst} (hlt : p.step < t)
    (ht : u.executed T t = some (j, inst)) (hread : inst.Reads g)
    (hbetween : ∀ m, p.step < m → m < t → ∀ k inst, u.executed T m = some (k, inst) → ¬ inst.Reads g ∧
      ¬ inst.Writes g ∧ ∀ y ∈ T.entriesAt k, ∀ n, bound = some n → ¬ y.Eclipses g m n) :
    ∃ n, bound = some n ∧ n ≤ t := by
  -- by induction on the steps up to `t`: each of them keeps the watch, and the last one meets it
  obtain ⟨k, hk⟩ := Nat.exists_eq_add_of_lt hlt
  induction k generalizing p with
  | zero =>
    obtain ⟨q, hq, hsucc⟩ := hp.exists_succ_of_executed hok ht hlt
    have hstep : q.step = t := hsucc.step_eq.trans hk.symm
    rw [← hstep, hq.executed_eq] at ht
    cases ht
    rw [← hstep]
    exact hwatches.of_reads hg hread hsucc.perform_eq
  | succ k ih =>
    obtain ⟨q, hq, hsucc⟩ := hp.exists_succ_of_executed hok ht hlt
    have hstep := hsucc.step_eq
    obtain ⟨hreads, hwrites, hentries⟩ := hbetween q.step (by omega) (by omega) _ _ hq.executed_eq
    have hwatches' := hwatches.perform hreads hwrites hentries hsucc.perform_eq
    exact ih hq hwatches' (by omega) (fun m hm => hbetween m (by omega)) (by omega)

end Completed

theorem Passes.table_eq (hp : u.Passes (Hinted.new T) p) : p.state.regs.table = T := by
  induction hp with
  | first _ _ hperform => exact perform_table hperform
  | succ _ _ hsucc ih => exact (perform_table hsucc.perform_eq).trans ih

/-- Just after an entry has been followed, the store watches over its group, unless an entry behind it eclipses that. -/
theorem Passes.watches (hp : u.Passes (Hinted.new T) p) {before after : List HintEntry} {x : HintEntry}
    (hentries : T.entriesAt p.cursor.iidx = before ++ x :: after) (hx : x.ActsOn g)
    (hafter : ∀ y ∈ after, ∀ n, x.nextUse.readableFrom p.step = some n → ¬ y.Eclipses g p.step n) :
    p.state.regs.Watches T g (x.nextUse.readableFrom p.step) := by
  have htable := hp.table_eq
  obtain ⟨s, hs⟩ := hp.exists_perform
  obtain ⟨s₁, regs, -, hregs, heq⟩ := Run.perform_eq_ok.1 hs
  rw [heq] at htable ⊢
  rw [afterInst_eq] at hregs
  have htable₁ : s₁.regs.table = T := (foldlM_follow_table hregs).symm.trans htable
  rw [htable₁, hentries, List.foldlM_append] at hregs
  obtain ⟨s₂, hs₂, hregs⟩ := bind_eq_ok.1 hregs
  rw [List.foldlM_cons] at hregs
  obtain ⟨s₃, hs₃, hregs⟩ := bind_eq_ok.1 hregs
  obtain ⟨htable₃, hguards, -⟩ := follow_marks hs₃
  have hwatches : s₃.Watches T g (x.nextUse.readableFrom p.step) :=
    ⟨(htable₃.trans (foldlM_follow_table hs₂)).trans htable₁, hguards hx⟩
  exact hwatches.foldlM_follow hafter hregs

/-- Between steps `s` and `t` an entry about `g` is followed that names a step before `earliest`. At step `s` itself the
entries `after` are meant. -/
def Eclipsed (u : CompiledUnit) (T : HintTable) (g : Group) (s t : Nat) (after : List HintEntry) (earliest : Nat) :
    Prop :=
  (∃ y ∈ after, y.Eclipses g s earliest) ∨
    ∃ m, s < m ∧ m < t ∧ ∃ k inst, u.executed T m = some (k, inst) ∧ ∃ y ∈ T.entriesAt k, y.Eclipses g m earliest

/-- **A run that follows hints to its end has obeyed those that were in force.** Let the instruction executed as step `s`
have an entry about `g`, and let step `t` be the first one after it that reads `g`, without a write of `g` on the way.
Then the entry did not say that `g` is never used, and the step that it named has come by then, unless a later entry has
eclipsed it. -/
theorem runHinted_obeys (u : CompiledUnit) (T : HintTable) {r : List Event × Nat} (hok : u.runHinted T = .ok r)
    {s t i j : Nat} {inst inst' : Inst} (hs : u.executed T s = some (i, inst)) (ht : u.executed T t = some (j, inst'))
    (hlt : s < t) {before after : List HintEntry} {x : HintEntry} {g : Group}
    (hentries : T.entriesAt i = before ++ x :: after) (hx : x.ActsOn g) (hread : inst'.Reads g)
    (hbetween : ∀ m, s < m → m < t → ∀ k inst, u.executed T m = some (k, inst) → ¬ inst.Reads g ∧ ¬ inst.Writes g) :
    ∃ d, x.nextUse = .after d ∧ (u.Eclipsed T g s t after (s + d.val) ∨ s + d.val ≤ t) := by
  obtain ⟨⟨events, regs⟩, hresult, -⟩ := map_eq_ok.1 hok
  obtain ⟨⟨ending, final⟩, hrun, -⟩ := map_eq_ok.1 hresult
  obtain ⟨p, hp, rfl, hcursor⟩ := exists_passes_of_executed hrun hs
  cases hcursor
  -- what is not eclipsed is in force until step `t`
  have hforce : (∀ n, x.nextUse.readableFrom p.step = some n → ¬ u.Eclipsed T g p.step t after n) →
      ∃ n, x.nextUse.readableFrom p.step = some n ∧ n ≤ t := by
    intro heclipsed
    have hwatches := hp.watches hentries hx fun y hy n hn hy' => heclipsed n hn (Or.inl ⟨y, hy, hy'⟩)
    refine hp.of_watches hrun (Reg.gp_group_ne_sp hx) hwatches hlt ht hread fun m hm hmt k inst hk => ?_
    obtain ⟨hreads, hwrites⟩ := hbetween m hm hmt k inst hk
    exact ⟨hreads, hwrites, fun y hy n hn hy' => heclipsed n hn (Or.inr ⟨m, hm, hmt, k, inst, hk, y, hy, hy'⟩)⟩
  cases hnext : x.nextUse with
  | never =>
    rw [hnext] at hforce
    obtain ⟨n, hn, -⟩ := hforce fun n hn => (by cases hn)
    cases hn
  | after d =>
    rw [hnext] at hforce
    refine ⟨d, rfl, or_iff_not_imp_left.2 fun heclipsed => ?_⟩
    obtain ⟨n, hn, hle⟩ := hforce fun n hn => Option.some.inj hn ▸ heclipsed
    cases hn
    exact hle

/-- A value that is read two instructions after it was written. -/
def readLater : CompiledUnit where
  name := "read_later"
  edition := .e0
  blocks := [[.const (.gp 0 .w64) 1, .const (.gp 1 .w64) 2, .blackbox (.gp 0 .w64)]]
  blocks_ne_nil := by decide

/-- Two hints about the value: the first says `d`, and the second that it is read next. -/
def chilledTwice (d : Distance) : HintTable where
  edition := .e0
  instsLen := 3
  hints := [⟨0, [⟨.gp, 0, .after d⟩]⟩, ⟨1, [⟨.gp, 0, .next⟩]⟩]

/-- When the first hint names step 3 as well, both are obeyed. -/
theorem chilledTwice_obeys : ∃ d, d.val = 2 ∧ readLater.runHinted (chilledTwice d) = .ok ([.blackbox 1], 0) ∧
    ∃ d', NextUse.after d = .after d' ∧
      (readLater.Eclipsed (chilledTwice d) 0 1 3 [] (1 + d'.val) ∨ 1 + d'.val ≤ 3) := by
  let d : Distance := ⟨2, by decide, by decide⟩
  have hok : readLater.runHinted (chilledTwice d) = .ok ([.blackbox 1], 0) := by decide +kernel
  have hs : readLater.executed (chilledTwice d) 1 = some (0, .const (.gp 0 .w64) 1) := by decide +kernel
  have ht : readLater.executed (chilledTwice d) 3 = some (2, .blackbox (.gp 0 .w64)) := by decide +kernel
  have hentries : (chilledTwice d).entriesAt 0 = [] ++ ⟨.gp, 0, .after d⟩ :: [] := by decide +kernel
  have hbetween : ∀ m < 3, 1 < m → ∀ done ∈ readLater.executed (chilledTwice d) m,
      ¬ done.2.Reads 0 ∧ ¬ done.2.Writes 0 := by
    decide +kernel
  exact ⟨d, rfl, hok, runHinted_obeys readLater (chilledTwice d) hok hs ht (by decide) hentries (by decide) (by decide)
    fun m hm hmt k inst hk => hbetween m hmt hm (k, inst) hk⟩

/-- When the first hint names step 4, it is forgotten: the value is read at step 3, and nothing is noticed. -/
theorem chilledTwice_forgets : ∃ d, d.val = 3 ∧ readLater.validate = .ok () ∧
    HintTable.decode (chilledTwice d).bytes .e0 = .ok (chilledTwice d) ∧
    readLater.runHinted (chilledTwice d) = .ok ([.blackbox 1], 0) ∧
    readLater.executed (chilledTwice d) 1 = some (0, .const (.gp 0 .w64) 1) ∧
    (chilledTwice d).entriesAt 0 = [⟨.gp, 0, .after d⟩] ∧
    readLater.executed (chilledTwice d) 2 = some (1, .const (.gp 1 .w64) 2) ∧
    readLater.executed (chilledTwice d) 3 = some (2, .blackbox (.gp 0 .w64)) ∧ ¬ 1 + d.val ≤ 3 :=
  ⟨⟨3, by decide, by decide⟩, by decide +kernel⟩

end CompiledUnit

end ChillHints
