import ChillHints.Proofs.Holding

/-!
# The analyses end

A loop is bounded by a number of steps that its definition names. Here it is shown that none of the loops of the
analyses is ever cut off by its bound, whatever the edges between the blocks are. `Comes step start s` says that the
loop from `start` comes to the state `s`, and `EndsWith` that in all these states a step goes one way only and lowers a
measure, so that the loop ends by itself.

- The search for the blocks that can be reached visits one more block with every step (`endsWith_search`).
- A sweep for what has been written makes blocks known and states narrower (`endsWith_defs`). It may as well leave a
  block alone while none of its predecessors is known (`skipSweep_eq`).
- A step of the scan for next uses takes a block off the stack, or makes a use sooner (`endsWith_uses`).
- A sweep for what may be held adds groups (`endsWith_holds`).

No block is twice on a stack. All this is needed for units without flawed instructions only, since the others have no
flow (`analyses_end`).
-/

namespace ChillHints

/-! ## Loops that end by themselves -/

section Loops

variable {σ τ : Type} {step : σ → σ ⊕ τ} {start s : σ}

/-- The loop from `start` comes to the state `s`. -/
inductive Comes (step : σ → σ ⊕ τ) (start : σ) : σ → Prop
  | start : Comes step start start
  | next {s s' : σ} : Comes step start s → step s = .inl s' → Comes step start s'

/-- What holds at the start and is kept by every step holds in all states of the loop. -/
theorem Comes.invariant {I : σ → Prop} (hstart : I start) (hnext : ∀ s s', I s → step s = .inl s' → I s')
    (hs : Comes step start s) : I s := by
  induction hs with
  | start => exact hstart
  | next _ hstep ih => exact hnext _ _ ih hstep

/-- The loop from `start` ends with `result`: every step goes down and lowers the measure, so that a bound above the
measure at the start is never reached. -/
structure EndsWith (step : σ → σ ⊕ τ) (start : σ) (measure : σ → Nat) (down : σ → σ → Prop) (result : τ) :
    Prop where
  falls : ∀ s s', Comes step start s → step s = .inl s' → down s' s ∧ measure s' < measure s
  ends : ∀ bound, measure start < bound → loop step bound start = some result

/-- A result does not depend on the bound. -/
theorem loop_unique {n m : Nat} {t t' : τ} (h : loop step n s = some t) (h' : loop step m s = some t') : t = t' := by
  induction n generalizing m s with
  | zero => cases h
  | succ n ih =>
    cases m with
    | zero => cases h'
    | succ m =>
      rw [loop] at h h'
      cases hstep : step s with
      | inl s' =>
        rw [hstep] at h h'
        exact ih h h'
      | inr r =>
        rw [hstep] at h h'
        exact Option.some.inj (h.symm.trans h')

/-- **A loop ends by itself** if by an invariant every step goes down and lowers the measure, and then what it gives
within a bound above the measure is its result. -/
theorem endsWith_of_invariant {I : σ → Prop} {measure : σ → Nat} {down : σ → σ → Prop} (hstart : I start)
    (hnext : ∀ s s', I s → step s = .inl s' → I s' ∧ down s' s ∧ measure s' < measure s) {bound : Nat}
    (hbound : measure start < bound) (default : τ) :
    EndsWith step start measure down ((loop step bound start).getD default) where
  falls s s' hs hstep := (hnext s s' (hs.invariant hstart fun s s' h hs => (hnext s s' h hs).1) hstep).2
  ends bound' hbound' := by
    have hloop : ∀ b, measure start < b → ∃ t, loop step b start = some t ∧ True := fun b hb =>
      loop_spec (I := I) (P := fun _ => True)
        (fun s s' hs hstep => ⟨(hnext s s' hs hstep).1, (hnext s s' hs hstep).2.2⟩)
        (fun _ _ _ _ => trivial) b start hstart hb
    obtain ⟨t, ht, -⟩ := hloop bound hbound
    obtain ⟨t', ht', -⟩ := hloop bound' hbound'
    rw [ht', ht, loop_unique ht' ht]
    rfl

end Loops

/-! ## The search -/

/-- The second search has visited what the first has, and has seen what the first has seen. -/
def Walk.Extends {n : Nat} (w' w : Walk n) : Prop :=
  w.visited <+: w'.visited ∧ ∀ b, w.seen b = true → w'.seen b = true

/-- A step of the search extends it. -/
theorem Walk.Sound.extends {n : Nat} {g : Graph n} {start : Fin n} {w w' : Walk n} (h : Walk.Sound g start w)
    (hstep : Walk.step g w = .inl w') : w'.Extends w := by
  obtain ⟨visited, todo⟩ := w
  cases todo with
  | nil => simp [Walk.step] at hstep
  | cons b todo =>
    simp only [Walk.step, Sum.inl.injEq] at hstep
    have hnodup : ((visited ++ [b]) ++ todo).Nodup := by simpa using h.nodup
    obtain ⟨hvisited, -, hseen⟩ := foldl_see (g.succs.get b) ⟨visited ++ [b], todo⟩ hnodup
    rw [hstep] at hvisited hseen
    refine ⟨hvisited ▸ List.prefix_append visited [b], fun c hc => (hseen c).mpr (Or.inl ?_)⟩
    rw [seen_iff] at hc ⊢
    simpa [or_assoc] using hc

namespace CompiledUnit

variable {u : CompiledUnit} {f : Flow u.size}

/-- How many blocks the search has not visited. -/
def unvisited (w : Walk u.size) : Nat := u.size - w.visited.length

theorem endsWith_search (u : CompiledUnit) :
    EndsWith (Walk.step u.graph) ⟨[], [u.entry]⟩ unvisited Walk.Extends u.searchOrder := by
  refine endsWith_of_invariant (I := Walk.Sound u.graph u.entry) (Walk.sound_initial u.graph u.entry)
    (fun w w' hw hstep => ?_) (Nat.lt_succ_of_le (Nat.sub_le _ _)) []
  obtain ⟨hw', hlen⟩ := hw.step hstep
  have hle := hw'.length_visited_le
  exact ⟨hw', hw.extends hstep, by unfold unvisited; omega⟩

/-- No block is seen twice. -/
theorem nodup_search {w : Walk u.size} (hw : Comes (Walk.step u.graph) ⟨[], [u.entry]⟩ w) :
    (w.visited ++ w.todo).Nodup :=
  (hw.invariant (Walk.sound_initial u.graph u.entry) fun _ _ h hstep => (h.step hstep).1).nodup

/-! ## The sweeps for what has been written -/

theorem IsFlow.endsWith_defs (hf : u.IsFlow f) :
    EndsWith (sweepStep f.entryDefsOf) (.all none) (weigh knownWeight) (Below KnownLe) f.entryDefs := by
  refine endsWith_of_invariant (falls_unknown u f) (fun v v' hv hstep => hf.descent_defs.sweepStep_falls hv hstep) ?_ _
  exact Nat.lt_succ_of_le (weigh_le fun b => by rw [Cells.get_all]; exact Nat.le_refl _)

/-- Sets the states of the blocks as far as something is known of them, and leaves the others alone. -/
def skipSweep (f : Flow u.size) (v : Cells u.size (Option Defs)) : Cells u.size (Option Defs) :=
  (List.finRange u.size).foldl (fun v b => if (f.entryDefsOf b v).isSome then v.put b (f.entryDefsOf b v) else v) v

/-- A block that nothing is known of has not been known before. -/
theorem IsFlow.skipSweep_eq (hf : u.IsFlow f) {v : Cells u.size (Option Defs)}
    (hv : Comes (sweepStep f.entryDefsOf) (.all none) v) : skipSweep f v = sweep f.entryDefsOf v := by
  have hfalls := hv.invariant (falls_unknown u f) fun v v' hv hstep => (hf.descent_defs.sweepStep_falls hv hstep).1
  unfold skipSweep sweep
  generalize List.finRange u.size = bs
  clear hv
  induction bs generalizing v with
  | nil => rfl
  | cons b bs ih =>
    have hput := (hf.descent_defs.put_falls hfalls b).1
    rw [List.foldl_cons, List.foldl_cons]
    cases hb : f.entryDefsOf b v with
    | some d =>
      rw [hb] at hput
      exact ih hput
    | none =>
      -- an unknown state is above all others, so it is not below a known one
      have hnone : v.get b = none := by
        have hbelow := hfalls.below b
        rw [hb] at hbelow
        cases hget : v.get b with
        | none => rfl
        | some d => rw [hget] at hbelow; exact absurd hbelow id
      have hsame : v.put b none = v := by
        have := Cells.put_get v b
        rwa [hnone] at this
      rw [hsame]
      exact ih hfalls

/-! ## The scan for next uses -/

/-- The uses on entry to the blocks are at least as soon. -/
def ScanBelow (s' s : Scan u.size) : Prop := Below Uses.Le s'.entries s.entries

theorem IsFlow.endsWith_uses (hf : u.IsFlow f) :
    EndsWith (Scan.step f) (.initial u.size) scanWeight ScanBelow f.entryUses :=
  endsWith_of_invariant (scanSound_initial u f) (fun _ _ hs hstep => hf.scan_step hs hstep) (scanWeight_initial_lt u) _

/-- No block is twice on the stack. -/
theorem IsFlow.nodup_scan (hf : u.IsFlow f) {s : Scan u.size} (hs : Comes (Scan.step f) (.initial u.size) s) :
    s.todo.Nodup :=
  (hs.invariant (scanSound_initial u f) fun _ _ h hstep => (hf.scan_step h hstep).1).nodup

/-! ## The sweeps for what may be held -/

theorem IsFlow.endsWith_holds (hf : u.IsFlow f) : EndsWith (sweepStep f.exitHoldsOf) (.all Holds.nothing)
    (weigh (weigh Holds.rank)) (Below Holds.Le) f.exitHolds := by
  refine endsWith_of_invariant (falls_nothing u f) (fun v v' hv hstep => hf.descent_holds.sweepStep_falls hv hstep) ?_ _
  exact Nat.lt_succ_of_le (weigh_le fun b => weigh_le (B := 1) fun g => by rw [get_all_nothing]; decide)

/-! ## All of them -/

/-- The loops of the analyses end by themselves, each with the result that is used. -/
structure LoopsEnd (u : CompiledUnit) (f : Flow u.size) : Prop where
  /-- The search visits one block after the other. -/
  search : EndsWith (Walk.step u.graph) ⟨[], [u.entry]⟩ unvisited Walk.Extends u.searchOrder
  /-- It sees no block twice. -/
  search_once : ∀ w, Comes (Walk.step u.graph) ⟨[], [u.entry]⟩ w → (w.visited ++ w.todo).Nodup
  /-- The sweeps for what has been written make blocks known and states narrower. -/
  defs : EndsWith (sweepStep f.entryDefsOf) (.all none) (weigh knownWeight) (Below KnownLe) f.entryDefs
  /-- They may leave a block alone while nothing is known of it. -/
  defs_skip : ∀ v, Comes (sweepStep f.entryDefsOf) (.all none) v → skipSweep f v = sweep f.entryDefsOf v
  /-- The scan takes blocks off the stack and makes uses sooner. -/
  uses : EndsWith (Scan.step f) (.initial u.size) scanWeight ScanBelow f.entryUses
  /-- It has no block twice on the stack. -/
  uses_once : ∀ s, Comes (Scan.step f) (.initial u.size) s → s.todo.Nodup
  /-- The sweeps for what may be held add groups. -/
  holds : EndsWith (sweepStep f.exitHoldsOf) (.all Holds.nothing) (weigh (weigh Holds.rank)) (Below Holds.Le)
    f.exitHolds

/-- **All loops of the analyses end**, in every unit without flawed instructions, whatever its edges are. Each step goes
one way only and lowers a measure, and no block is queued while it is queued. -/
theorem analyses_end (u : CompiledUnit) (hu : u.structureFlaw? = none) : ∃ f, u.flow = .ok f ∧ u.LoopsEnd f := by
  obtain ⟨f, hflow, hf⟩ := (structureFlaw?_none hu).exists_flow
  exact ⟨f, hflow,
    { search := u.endsWith_search
      search_once := fun _ => nodup_search
      defs := hf.endsWith_defs
      defs_skip := fun _ => hf.skipSweep_eq
      uses := hf.endsWith_uses
      uses_once := fun _ => hf.nodup_scan
      holds := hf.endsWith_holds }⟩

/-- A loop that is entered at two places, one of them going to itself and the other back to the entry, and a loop that
no path goes to, through an empty block. -/
def tangle : CompiledUnit where
  name := "tangle"
  edition := .e0
  blocks := [
    [.const (.gp 0 .w64) 1, .condbr (.gp 0 .w8) 1 2],
    [.blackbox (.gp 0 .w64), .condbr (.gp 0 .w8) 2 1],
    [.drop (.gp 1 .w64), .condbr (.gp 0 .w8) 1 0],
    [],
    [.const (.gp 1 .w16) 7, .br 3]]
  blocks_ne_nil := by decide

/-- The loops end on `tangle`. -/
theorem tangle_analyses_end : tangle.structureFlaw? = none ∧ ∃ f, tangle.flow = .ok f ∧ tangle.LoopsEnd f :=
  ⟨by decide +kernel, analyses_end tangle (by decide +kernel)⟩

end CompiledUnit

end ChillHints
