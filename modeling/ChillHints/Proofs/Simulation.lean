import ChillHints.Proofs.Watch

/-!
# Runs on different stores

What a run does depends on its store by the answers to reads alone. So a relation between two stores that their
operations keep, and under which the second store answers whatever the first one answers, carries over to runs of any
unit, well formed or not (`Simulation`): as long as the first run goes on, the second one goes the same way, and if the
first one comes to its end, so does the second, and the same is seen of both (`Simulation.ofUnit`).

* The spilling store holds for every group what the store with a place for every group has (`Reflects`). Each of the
  two answers what the other one does, so their runs agree also in where they break off
  (`runSpilling_iff_runDirect`).
* A store that follows hints holds that too, for the groups that are not dead (`Hinted.Honest`), and only these are
  read. Whatever the table says, a run that follows it to its end is seen as without hints (`runDirect_of_runHinted`).
-/

namespace ChillHints

/-! ## Simulations -/

/-- `R` is kept by all that a machine does to two stores, and what the first store answers, the second one does. -/
structure Simulation {σ τ : Type} [RegisterStore σ] [RegisterStore τ] (R : σ → τ → Prop) : Prop where
  read : ∀ {step g s t v s'}, R s t → RegisterStore.read step g s = .ok (v, s') →
    ∃ t', RegisterStore.read step g t = .ok (v, t') ∧ R s' t'
  write : ∀ {g bits v s t}, R s t → R (RegisterStore.write g bits v s) (RegisterStore.write g bits v t)
  discard : ∀ {g s t}, R s t → R (RegisterStore.discard g s) (RegisterStore.discard g t)
  afterInst : ∀ {step iidx s t s'}, R s t → RegisterStore.afterInst step iidx s = .ok s' →
    ∃ t', RegisterStore.afterInst step iidx t = .ok t' ∧ R s' t'

/-- The run `r'` goes the way of `r` as long as that one goes on, and if that one comes to its end, both end in the
same way with states that differ in their stores at most. -/
structure Run.Leads {σ τ : Type} (R : σ → τ → Prop) (r : Run σ) (r' : Run τ) : Prop where
  trail_le : r.trail <+: r'.trail
  ends : ∀ ending s, r.outcome = .ok (ending, s) →
    r'.trail = r.trail ∧ ∃ t, r'.outcome = .ok (ending, t) ∧ s.Agree R t

section

variable {σ τ : Type} {R : σ → τ → Prop}

/-- What a run begins with. -/
theorem Run.exists_trail_eq [RegisterStore σ] (u : CompiledUnit) (fuel step : Nat) (c : Cursor) (s : MachineState σ) :
    ∃ sites, (go u (fuel + 1) step (some c) s).trail = c.site :: sites := by
  rw [go]
  split <;> exact ⟨_, rfl⟩

/-- One more instruction at the front of both runs. -/
theorem Run.Leads.cons {r : Run σ} {r' : Run τ} (h : r.Leads R r') (site : Site) :
    Run.Leads R ⟨site :: r.trail, r.outcome⟩ ⟨site :: r'.trail, r'.outcome⟩ := by
  refine ⟨List.cons_prefix_cons.2 ⟨rfl, h.trail_le⟩, fun ending s hs => ?_⟩
  obtain ⟨htrail, ht⟩ := h.ends ending s hs
  exact ⟨congrArg (site :: ·) htrail, ht⟩

namespace Simulation

variable [RegisterStore σ] [RegisterStore τ] (hR : Simulation R) {e : Edition} {step : Nat}
include hR

/-- The change that an instruction makes. -/
theorem apply {c : Change} {s s' : σ} {t : τ} (h : R s t) (hs : c.apply e s = .ok s') :
    ∃ t', c.apply e t = .ok t' ∧ R s' t' := by
  cases c with
  | keep =>
    cases hs
    exact ⟨t, rfl, h⟩
  | assign r v =>
    obtain ⟨g, hg, rfl⟩ := map_eq_ok.1 hs
    exact ⟨_, map_eq_ok.2 ⟨g, hg, rfl⟩, hR.write h⟩
  | discard r =>
    obtain ⟨g, hg, rfl⟩ := map_eq_ok.1 hs
    exact ⟨_, map_eq_ok.2 ⟨g, hg, rfl⟩, hR.discard h⟩

/-- An instruction, and what the stores do after it. -/
theorem perform {c : Cursor} {s s' : MachineState σ} {t : MachineState τ} {next : Next} (h : s.Agree R t)
    (hs : Run.perform e step c s = .ok (next, s')) :
    ∃ t', Run.perform e step c t = .ok (next, t') ∧ s'.Agree R t' := by
  refine Run.perform_follows (fun r _ g _ _ s t v s' h hs => ?_) (fun _ _ _ _ _ _ h hs => hR.apply h hs)
    (fun _ _ _ h hs => hR.afterInst h hs) h hs
  obtain ⟨t', ht', h'⟩ := hR.read h hs
  exact ⟨v, t', ht', rfl, h'⟩

/-- **What one instruction keeps, a run keeps**, wherever control goes in it. -/
theorem go {u : CompiledUnit} {fuel : Nat} {cur : Option Cursor} {s : MachineState σ} {t : MachineState τ}
    (h : s.Agree R t) : (Run.go u fuel step cur s).Leads R (Run.go u fuel step cur t) := by
  induction fuel generalizing step cur s t with
  | zero =>
    cases cur <;>
      exact ⟨List.prefix_rfl, fun ending s' hs => by cases hs; exact ⟨rfl, t, rfl, h⟩⟩
  | succ fuel ih =>
    cases cur with
    | none => exact ⟨List.prefix_rfl, fun ending s' hs => by cases hs; exact ⟨rfl, t, rfl, h⟩⟩
    | some c =>
      obtain ⟨sites, hsites⟩ := Run.exists_trail_eq u fuel step c t
      rw [Run.go]
      cases hperform : Run.perform u.edition step c s with
      | error f =>
        -- whatever becomes of the second run, it has begun this instruction too
        refine ⟨?_, fun ending s' hs => by cases hs⟩
        rw [hsites]
        exact List.cons_prefix_cons.2 ⟨rfl, List.nil_prefix⟩
      | ok r =>
        obtain ⟨next, s₁⟩ := r
        obtain ⟨t₁, ht₁, h₁⟩ := hR.perform h hperform
        rw [Run.go, ht₁]
        cases next with
        | fall => exact (ih h₁).cons c.site
        | jump target => exact (ih h₁).cons c.site
        | stop => exact ⟨List.prefix_rfl, fun ending s' hs => by cases hs; exact ⟨rfl, t₁, rfl, h₁⟩⟩

/-- Runs of a whole unit. -/
theorem ofUnit (u : CompiledUnit) {s : σ} {t : τ} (h : R s t) : (Run.ofUnit u s).Leads R (Run.ofUnit u t) :=
  hR.go ⟨h, rfl, rfl, rfl⟩

end Simulation

end

/-! ## The spilling store -/

namespace Spilling

/-- The spilling store `t` holds what the store `s` has in its places. -/
structure Reflects (s : Direct) (t : Spilling) : Prop where
  tidy : t.Tidy
  contents_eq : ∀ g, t.contents g = s.values.get g

theorem reflects_empty : Reflects Direct.empty empty :=
  ⟨tidy_empty, fun g => by rw [contents_empty, Direct.empty, Cells.get_all]⟩

variable {s : Direct} {t : Spilling}

theorem Reflects.write (h : Reflects s t) (g : Group) (v : UInt64) :
    Reflects ⟨s.values.put g (some v)⟩ (t.write g v) := by
  obtain ⟨htidy, hcontents⟩ := h.tidy.write g v
  exact ⟨htidy, fun x => by rw [hcontents, Cells.get_put, h.contents_eq]⟩

theorem Reflects.discard (h : Reflects s t) (g : Group) : Reflects ⟨s.values.put g none⟩ (t.discard g) := by
  obtain ⟨htidy, hcontents⟩ := h.tidy.discard g
  exact ⟨htidy, fun x => by rw [hcontents, Cells.get_put, h.contents_eq]⟩

/-- The spilling store answers what the direct one does. -/
theorem simulation_of_direct : Simulation Reflects where
  read {step g s t v s'} h hs := by
    obtain ⟨hval, rfl⟩ := Direct.read_eq_ok.1 hs
    obtain ⟨t', ht', htidy, hcontents⟩ := h.tidy.read ((h.contents_eq g).trans hval)
    exact ⟨t', ht', htidy, fun x => (hcontents x).trans (h.contents_eq x)⟩
  write h := h.write _ _
  discard h := h.discard _
  afterInst {_ _ s t s'} h hs := ⟨t, rfl, Except.ok.inj hs ▸ h⟩

/-- The direct store answers what the spilling one does. -/
theorem simulation_to_direct : Simulation (flip Reflects) where
  read {step g t s v t'} h ht := by
    obtain ⟨hval, htidy, hcontents⟩ := Tidy.of_read h.tidy ht
    refine ⟨s, Direct.read_eq_ok.2 ⟨(h.contents_eq g).symm.trans hval, rfl⟩, htidy, fun x => ?_⟩
    exact (hcontents x).trans (h.contents_eq x)
  write h := Reflects.write h _ _
  discard h := Reflects.discard h _
  afterInst {_ _ t s t'} h ht := ⟨s, rfl, Except.ok.inj ht ▸ h⟩

end Spilling

/-- The number of the step in which the run broke off. -/
def Run.brokeOffAt? {σ : Type} (r : Run σ) : Option Nat :=
  match r.outcome with
  | .ok _ => none
  | .error _ => some r.trail.length

/-- Two runs that lead each other go the same way, and break off together. -/
theorem Run.Leads.antisymm {σ τ : Type} {R : σ → τ → Prop} {R' : τ → σ → Prop} {r : Run σ} {r' : Run τ}
    (h : r.Leads R r') (h' : r'.Leads R' r) : r'.trail = r.trail ∧ r'.brokeOffAt? = r.brokeOffAt? := by
  have htrail : r'.trail = r.trail := h'.trail_le.eq_of_length_le h.trail_le.length_le
  refine ⟨htrail, ?_⟩
  unfold brokeOffAt?
  cases hr : r.outcome with
  | ok a =>
    obtain ⟨-, t, ht, -⟩ := h.ends a.1 a.2 hr
    rw [ht]
  | error f =>
    cases hr' : r'.outcome with
    | ok b =>
      obtain ⟨-, s, hs, -⟩ := h'.ends b.1 b.2 hr'
      cases hr.symm.trans hs
    | error f' => rw [htrail]

namespace CompiledUnit

/-- **With four registers a unit runs as with a place for every group**, well formed or not. The same instructions are
executed, either both runs break off in the same step or neither does, and then the same is seen of both. -/
theorem runSpilling_iff_runDirect (u : CompiledUnit) :
    (Run.ofUnit u Spilling.empty).trail = (Run.ofUnit u Direct.empty).trail ∧
    (Run.ofUnit u Spilling.empty).brokeOffAt? = (Run.ofUnit u Direct.empty).brokeOffAt? ∧
    ∀ events, (∃ reloads, u.runSpilling = .ok (events, reloads)) ↔ u.runDirect = .ok events := by
  have hdirect := Spilling.simulation_of_direct.ofUnit u Spilling.reflects_empty
  have hspilling := Spilling.simulation_to_direct.ofUnit u Spilling.reflects_empty
  obtain ⟨htrail, hbroke⟩ := hdirect.antisymm hspilling
  refine ⟨htrail, hbroke, fun events => ⟨?_, ?_⟩⟩
  · rintro ⟨reloads, hok⟩
    obtain ⟨⟨_, regs⟩, hresult, heq⟩ := map_eq_ok.1 hok
    obtain ⟨⟨ending, t⟩, ht, hevents⟩ := map_eq_ok.1 hresult
    obtain ⟨-, s, hs, hagree⟩ := hspilling.ends ending t ht
    cases heq
    cases hevents
    simp only [runDirect, Run.result, hs, Except.map, hagree.events]
  · intro hok
    obtain ⟨⟨_, regs⟩, hresult, heq⟩ := map_eq_ok.1 hok
    obtain ⟨⟨ending, s⟩, hs, hevents⟩ := map_eq_ok.1 hresult
    obtain ⟨-, t, ht, hagree⟩ := hdirect.ends ending s hs
    cases heq
    cases hevents
    exact ⟨t.regs.reloads, by simp only [runSpilling, Run.result, ht, Except.map, hagree.events]⟩

end CompiledUnit

/-! ## The store that follows hints -/

namespace Hinted

/-- The store `t` holds, for every group that is not dead, what the store `s` has in its place. -/
structure Honest (t : Hinted) (s : Direct) : Prop where
  tidy : t.store.Tidy
  contents_eq : ∀ g, t.dead.get g = false → t.store.contents g = s.values.get g

theorem honest_new (T : HintTable) : Honest (Hinted.new T) Direct.empty := by
  refine ⟨Spilling.tidy_empty, fun g _ => ?_⟩
  simp [Hinted.new, Direct.empty, Spilling.contents_empty]

variable {s : Direct} {t t' : Hinted} {g : Group} {step : Nat}

/-- A read that is answered is of a group that is not dead, and its answer comes from the spilling store. -/
theorem store_of_read {v : UInt64} (ht : read step g t = .ok (v, t')) :
    t.dead.get g = false ∧ t.store.read g = .ok (v, t'.store) ∧ t'.dead = t.dead := by
  obtain ⟨-, -, hdead, -⟩ := read_marks ht
  refine ⟨hdead, ?_⟩
  simp only [read, hdead, Bool.false_eq_true, if_false] at ht
  split at ht
  · split at ht
    · cases ht
    · obtain ⟨⟨_, store⟩, hread, ht⟩ := map_eq_ok.1 ht
      cases ht
      exact ⟨hread, rfl⟩
  · obtain ⟨⟨_, store⟩, hread, ht⟩ := map_eq_ok.1 ht
    cases ht
    exact ⟨hread, rfl⟩

/-- Following an entry loses no value but that of a group which is dead from then on. -/
theorem Honest.follow (h : Honest t s) {x : HintEntry} (ht : Hinted.follow step t x = .ok t') : Honest t' s := by
  obtain ⟨g, -, ht⟩ := bind_eq_ok.1 ht
  cases hnext : x.nextUse with
  | never =>
    rw [hnext] at ht
    cases ht
    obtain ⟨htidy, hcontents⟩ := h.tidy.discard g
    refine ⟨htidy, fun y hy => ?_⟩
    have hne : g ≠ y := by
      rintro rfl
      cases (Cells.get_put_self t.dead g true).symm.trans hy
    rw [hcontents, if_neg hne]
    exact h.contents_eq y ((Cells.get_put_of_ne t.dead hne true).symm.trans hy)
  | after d =>
    rw [hnext] at ht
    cases ht
    obtain ⟨htidy, hcontents⟩ := h.tidy.evict g
    exact ⟨htidy, fun y hy => (hcontents y).trans (h.contents_eq y hy)⟩

/-- The direct store answers what a store that follows hints does, whatever the hints. -/
theorem simulation_to_direct : Simulation Honest where
  read {step g t s v t'} h ht := by
    obtain ⟨hdead, hread, hsame⟩ := store_of_read ht
    obtain ⟨hval, htidy, hcontents⟩ := Spilling.Tidy.of_read h.tidy hread
    refine ⟨s, Direct.read_eq_ok.2 ⟨(h.contents_eq g hdead).symm.trans hval, rfl⟩, htidy, fun x hx => ?_⟩
    rw [hsame] at hx
    exact (hcontents x).trans (h.contents_eq x hx)
  write {g _ v t s} h := by
    obtain ⟨htidy, hcontents⟩ := h.tidy.write g v
    refine ⟨htidy, fun x hx => ?_⟩
    by_cases hgx : g = x
    · subst hgx
      exact ((hcontents g).trans (if_pos rfl)).trans (Cells.get_put_self ..).symm
    · have hdead : t.dead.get x = false := (Cells.get_put_of_ne t.dead hgx false).symm.trans hx
      refine ((hcontents x).trans (if_neg hgx)).trans ((h.contents_eq x hdead).trans ?_)
      exact (Cells.get_put_of_ne s.values hgx (some v)).symm
  discard {g t s} h := by
    obtain ⟨htidy, hcontents⟩ := h.tidy.discard g
    refine ⟨htidy, fun x hx => ?_⟩
    by_cases hgx : g = x
    · subst hgx
      exact ((hcontents g).trans (if_pos rfl)).trans (Cells.get_put_self ..).symm
    · refine ((hcontents x).trans (if_neg hgx)).trans ((h.contents_eq x hx).trans ?_)
      exact (Cells.get_put_of_ne s.values hgx none).symm
  afterInst {_ _ t s t'} h ht := by
    rw [afterInst_eq] at ht
    exact ⟨s, rfl, foldlM_follow_keeps (P := (Honest · s)) (fun _ _ _ _ h ht => h.follow ht) h ht⟩

end Hinted

namespace CompiledUnit

/-- **Hints never change what is seen.** Whatever the unit, well formed or not, and whatever the table, if the run that
follows the table comes to its end, so does the run without hints, and the same is seen of it. -/
theorem runDirect_of_runHinted (u : CompiledUnit) (T : HintTable) {events : List Event} {discards : Nat}
    (hok : u.runHinted T = .ok (events, discards)) : u.runDirect = .ok events := by
  obtain ⟨⟨_, regs⟩, hresult, heq⟩ := map_eq_ok.1 hok
  obtain ⟨⟨ending, t⟩, ht, hevents⟩ := map_eq_ok.1 hresult
  obtain ⟨-, s, hs, hagree⟩ := (Hinted.simulation_to_direct.ofUnit u (Hinted.honest_new T)).ends ending t ht
  cases heq
  cases hevents
  simp only [runDirect, Run.result, hs, Except.map, hagree.events]

/-- A unit with a branch in the middle of its block, to a block that does not exist, a read of more than was written,
and a write to the stack pointer. -/
def mistaken : CompiledUnit where
  name := "mistaken"
  edition := .e0
  blocks := [[.const (.gp 0 .w64) 7, .br 7, .const (.gp 0 .w8) 300, .blackbox (.gp 0 .w64), .mov .sp (.gp 0 .w64),
    .drop (.gp 1 .w64)]]
  blocks_ne_nil := by decide

/-- Hints that throw away values that may still be asked for, and that go on beyond the end of the unit. -/
def mistakenHints : HintTable where
  edition := .e0
  instsLen := 40
  hints := [
    ⟨0, [⟨.gp, 0, .never⟩, ⟨.gp, 3, .next⟩]⟩,
    ⟨3, [⟨.gp, 0, .next⟩, ⟨.sp, 0, .next⟩]⟩,
    ⟨4, [⟨.gp, 0, .never⟩]⟩,
    ⟨39, [⟨.gp, 1, .never⟩]⟩]

/-- None of the mistakes is noticed, and nothing is different without the hints. -/
theorem mistaken_runDirect : HintTable.decode mistakenHints.bytes .e0 = .ok mistakenHints ∧
    mistaken.validate ≠ .ok () ∧ mistaken.runHinted mistakenHints = .ok ([.blackbox 44], 2) ∧
    mistaken.runDirect = .ok [.blackbox 44] := by
  have hok : mistaken.runHinted mistakenHints = .ok ([.blackbox 44], 2) := by decide +kernel
  exact ⟨by decide +kernel, by decide +kernel, hok, runDirect_of_runHinted mistaken mistakenHints hok⟩

end CompiledUnit

end ChillHints
