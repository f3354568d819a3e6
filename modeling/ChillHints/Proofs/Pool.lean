import ChillHints.Code.Builder
import Mathlib.Data.Fintype.Card
import Mathlib.Data.Set.Card
import Mathlib.Order.Bounds.Basic

/-!
# The pool over whole histories

A history lists what a pool has answered and what it was given back. The numbers that are held are read off the history
alone: those that were handed out and not given back since, through whichever view (`heldIn`).

- Every call keeps the marks of the pool in step with the history (`Tracks.call`), and so does every sequence of calls
  (`Tracks.run`), whether a register is given back twice, was never handed out, or is not in the edition.
- A builder hands out registers from its own pool, and what it does besides leaves the pool alone
  (`Builder.tracks_run`).
- Therefore the next answer is determined by the numbers that are held (`Tracks.accounts`).
-/

namespace ChillHints

/-! ## Histories -/

/-- A call on a pool. -/
inductive PoolCall where
  | alloc (width : Width)
  | free (reg : Reg)

/-- What a call came to: the answer to a request, or what was given back. -/
inductive PoolEvent where
  | alloc (answer : Except Rejection Reg)
  | free (reg : Reg)

namespace PoolEvent

/-- A view of number `n` was handed out. -/
def HandsOut (ev : PoolEvent) (n : Nat) : Prop := ∃ i w, ev = .alloc (.ok (.gp i w)) ∧ i.toNat = n

/-- A view of number `n` was given back. -/
def TakesBack (ev : PoolEvent) (n : Nat) : Prop := ∃ i w, ev = .free (.gp i w) ∧ i.toNat = n

variable {n : Nat}

@[simp] theorem handsOut_alloc_ok {i : UInt8} {w : Width} : (alloc (.ok (.gp i w))).HandsOut n ↔ i.toNat = n := by
  simp [HandsOut]

@[simp] theorem not_handsOut_alloc_error {cause : Rejection} : ¬ (alloc (.error cause)).HandsOut n := by
  simp [HandsOut]

@[simp] theorem not_handsOut_free {r : Reg} : ¬ (free r).HandsOut n := by
  simp [HandsOut]

@[simp] theorem not_takesBack_alloc {answer : Except Rejection Reg} : ¬ (alloc answer).TakesBack n := by
  simp [TakesBack]

@[simp] theorem takesBack_free {r : Reg} : (free r).TakesBack n ↔ r.idx?.map UInt8.toNat = some n := by
  cases r <;> simp [TakesBack, Reg.idx?]

end PoolEvent

/-- The numbers that were handed out and not given back since. -/
def heldIn (history : List PoolEvent) : Set Nat :=
  {n | ∃ before ev after, history = before ++ ev :: after ∧ ev.HandsOut n ∧ ∀ ev' ∈ after, ¬ ev'.TakesBack n}

theorem heldIn_nil : heldIn [] = ∅ := by
  ext n
  simp [heldIn]

/-- Only the last event matters, and what was held before it. -/
theorem mem_heldIn_concat {history : List PoolEvent} {ev : PoolEvent} {n : Nat} :
    n ∈ heldIn (history ++ [ev]) ↔ ev.HandsOut n ∨ n ∈ heldIn history ∧ ¬ ev.TakesBack n := by
  constructor
  · rintro ⟨before, ev', after, heq, hout, hafter⟩
    rcases List.eq_nil_or_concat after with rfl | ⟨after, last, rfl⟩
    · obtain ⟨-, hev⟩ := List.append_inj' heq rfl
      cases hev
      exact Or.inl hout
    · rw [List.concat_eq_append, ← List.cons_append, ← List.append_assoc] at heq
      obtain ⟨rfl, hev⟩ := List.append_inj' heq rfl
      cases hev
      refine Or.inr ⟨⟨before, ev', after, rfl, hout, fun x hx => hafter x ?_⟩, hafter ev ?_⟩
      · simp [hx]
      · simp
  · rintro (hout | ⟨⟨before, ev', after, rfl, hout, hafter⟩, hback⟩)
    · exact ⟨history, ev, [], rfl, hout, fun x hx => by cases hx⟩
    · refine ⟨before, ev', after ++ [ev], by simp, hout, fun x hx => ?_⟩
      rcases List.mem_append.mp hx with hx | hx
      · exact hafter x hx
      · rw [List.mem_singleton.mp hx]
        exact hback

/-! ## Calls on a pool -/

namespace RegPool

variable {e : Edition} {p : RegPool e} {history : List PoolEvent}

/-- Makes a call. A request that is refused leaves the pool as it is. -/
def call (p : RegPool e) : PoolCall → PoolEvent × RegPool e
  | .alloc width =>
    match p.alloc width with
    | .ok (r, p') => (.alloc (.ok r), p')
    | .error cause => (.alloc (.error cause), p)
  | .free r => (.free r, p.free r)

/-- Makes calls one after the other. -/
def run (p : RegPool e) : List PoolCall → List PoolEvent × RegPool e
  | [] => ([], p)
  | c :: cs =>
    let (ev, p) := p.call c
    let (evs, p) := p.run cs
    (ev :: evs, p)

/-- The marks of the pool are those of the numbers that are held. -/
def Tracks (p : RegPool e) (history : List PoolEvent) : Prop :=
  ∀ n, n ∈ heldIn history ↔ ∃ h : n < e.numGp, p.held.get ⟨n, h⟩ = true

theorem tracks_empty : (empty : RegPool e).Tracks [] := by
  intro n
  simp [heldIn_nil, empty]

/-- A number of the edition fits into a register. -/
theorem toNat_ofNat_lt {n : Nat} (h : n < e.numGp) : (UInt8.ofNat n).toNat = n := by
  cases e
  have : n < 15 := h
  rw [UInt8.toNat_ofNat', Nat.mod_eq_of_lt (by omega)]

/-- The lowest free number is below all other free ones. -/
theorem lowestFree?_eq_some {i : Fin e.numGp} (h : p.lowestFree? = some i) :
    p.held.get i = false ∧ ∀ j < i, p.held.get j = true := by
  obtain ⟨hfree, before, after, hsplit, hbefore⟩ := List.find?_eq_some_iff_append.mp h
  refine ⟨by simpa using hfree, fun j hj => ?_⟩
  -- `before` is the part of the list up to `i`
  have hmem : j ∈ before ++ i :: after := by rw [← hsplit]; exact List.mem_finRange j
  have hasc : (before ++ i :: after).Pairwise (· < ·) := by rw [← hsplit]; exact List.pairwise_lt_finRange _
  rcases List.mem_append.mp hmem with hj' | hj'
  · simpa using hbefore j hj'
  · rcases List.mem_cons.mp hj' with rfl | hj'
    · exact absurd hj (Fin.lt_irrefl _)
    · have := List.rel_of_pairwise_cons (List.pairwise_append.mp hasc).2.1 hj'
      omega

theorem lowestFree?_eq_none : p.lowestFree? = none ↔ ∀ i, p.held.get i = true := by
  rw [lowestFree?, List.find?_eq_none]
  simp

/-- The marks after something is given back. -/
theorem get_free (p : RegPool e) (r : Reg) (i : Fin e.numGp) :
    (p.free r).held.get i = true ↔ p.held.get i = true ∧ r.idx?.map UInt8.toNat ≠ some i.val := by
  cases r with
  | sp => simp [free, Reg.idx?]
  | gp n w =>
    have hget : (p.free (.gp n w)).held.get i = if n.toNat = i.val then false else p.held.get i :=
      Vector.getElem_setIfInBounds i.isLt
    rw [hget]
    by_cases h : n.toNat = i.val <;> simp [Reg.idx?, h]

/-- **One call keeps the pool in step with the history.** -/
theorem Tracks.call (hp : p.Tracks history) (c : PoolCall) : (p.call c).2.Tracks (history ++ [(p.call c).1]) := by
  intro n
  rw [mem_heldIn_concat, hp n]
  cases c with
  | alloc w =>
    simp only [RegPool.call, alloc]
    cases hfree : p.lowestFree? with
    | none => simp
    | some i =>
      have hi := toNat_ofNat_lt i.isLt
      simp only [PoolEvent.handsOut_alloc_ok, PoolEvent.not_takesBack_alloc, not_false_eq_true, and_true, hi,
        Cells.get_put, Fin.ext_iff]
      constructor
      · rintro (rfl | ⟨hn, hheld⟩)
        · exact ⟨i.isLt, by simp⟩
        · exact ⟨hn, by simp [hheld]⟩
      · rintro ⟨hn, hheld⟩
        by_cases h : i.val = n
        · exact Or.inl h
        · rw [if_neg h] at hheld
          exact Or.inr ⟨hn, hheld⟩
  | free r =>
    simp only [RegPool.call, PoolEvent.not_handsOut_free, PoolEvent.takesBack_free, false_or, get_free]
    constructor
    · rintro ⟨⟨hn, hheld⟩, hback⟩
      exact ⟨hn, hheld, hback⟩
    · rintro ⟨hn, hheld, hback⟩
      exact ⟨⟨hn, hheld⟩, hback⟩

/-- **Every sequence of calls does.** -/
theorem Tracks.run (hp : p.Tracks history) (cs : List PoolCall) : (p.run cs).2.Tracks (history ++ (p.run cs).1) := by
  induction cs generalizing p history with
  | nil => simpa [RegPool.run] using hp
  | cons c cs ih => simpa [RegPool.run] using ih (hp.call c)

/-! ## What the numbers that are held say about the next call -/

/-- The answers of a pool of which the numbers in `held` are in use. -/
structure Accounts (p : RegPool e) (held : Set Nat) : Prop where
  /-- The numbers in use are counted. -/
  live : p.live = held.ncard
  /-- While a number is free, a request is answered with the least one, at the width that was asked for. -/
  grants : ∀ w, (∃ n < 15, n ∉ held) → ∃ n p', IsLeast {m | m < 15 ∧ m ∉ held} n.toNat ∧
    p.call (.alloc w) = (.alloc (.ok (.gp n w)), p')
  /-- A request is refused just if all fifteen are in use, and this changes nothing. -/
  refuses : ∀ w, p.call (.alloc w) = (.alloc (.error (.registersExhausted e 15)), p) ↔ ∀ n < 15, n ∈ held
  /-- Giving back what is not in use changes nothing. -/
  ignores : ∀ r, (∀ n ∈ held, r.idx?.map UInt8.toNat ≠ some n) → p.call (.free r) = (.free r, p)

/-- As many numbers are held as are marked. -/
theorem Tracks.live_eq (hp : p.Tracks history) : p.live = (heldIn history).ncard := by
  let marked := ((List.finRange e.numGp).filter fun i => p.held.get i).map Fin.val
  have hmarked : heldIn history = (marked.toFinset : Set Nat) := by
    ext n
    rw [hp n]
    simp [marked, Fin.exists_iff]
  have hnodup : marked.Nodup := ((List.nodup_finRange _).filter _).map Fin.val_injective
  rw [hmarked, Set.ncard_coe_finset, List.toFinset_card_of_nodup hnodup, List.length_map, live,
    List.countP_eq_length_filter]

/-- A number of the edition is held just if it is marked. -/
theorem Tracks.mem_iff (hp : p.Tracks history) (i : Fin e.numGp) : i.val ∈ heldIn history ↔ p.held.get i = true := by
  rw [hp i.val]
  exact ⟨fun ⟨_, h⟩ => h, fun h => ⟨i.isLt, h⟩⟩

/-- **A pool that is in step answers by what is held.** -/
theorem Tracks.accounts (hp : p.Tracks history) : p.Accounts (heldIn history) where
  live := hp.live_eq
  grants w hfree := by
    obtain ⟨n, hn, hnot⟩ := hfree
    cases e
    cases hlow : p.lowestFree? with
    | none => exact absurd ((hp.mem_iff ⟨n, hn⟩).mpr (lowestFree?_eq_none.mp hlow _)) hnot
    | some i =>
      obtain ⟨hi, hbelow⟩ := lowestFree?_eq_some hlow
      refine ⟨UInt8.ofNat i, ⟨p.held.put i true⟩, ?_, by simp only [RegPool.call, alloc, hlow]⟩
      rw [toNat_ofNat_lt i.isLt]
      refine ⟨⟨i.isLt, fun h => ?_⟩, fun m hm => ?_⟩
      · rw [hp.mem_iff, hi] at h
        cases h
      · -- a lower number would be marked
        by_contra hlt
        exact hm.2 ((hp.mem_iff ⟨m, hm.1⟩).mpr (hbelow ⟨m, hm.1⟩ (Nat.lt_of_not_le hlt)))
  refuses w := by
    cases e
    cases hlow : p.lowestFree? with
    | none =>
      have hall := lowestFree?_eq_none.mp hlow
      simp only [RegPool.call, alloc, hlow, Edition.numGp, true_iff]
      exact fun n hn => (hp.mem_iff ⟨n, hn⟩).mpr (hall _)
    | some i =>
      obtain ⟨hi, -⟩ := lowestFree?_eq_some hlow
      simp only [RegPool.call, alloc, hlow, Prod.mk.injEq, PoolEvent.alloc.injEq, reduceCtorEq, false_and, false_iff]
      intro hall
      have := (hp.mem_iff i).mp (hall i.val i.isLt)
      rw [hi] at this
      cases this
  ignores r hr := by
    have hheld : (p.free r).held = p.held := by
      refine Cells.ext_get fun i => ?_
      rw [Bool.eq_iff_iff, get_free]
      exact ⟨fun h => h.1, fun h => ⟨h, hr _ ((hp.mem_iff i).mpr h)⟩⟩
    have hfree : p.free r = p := congrArg RegPool.mk hheld
    rw [RegPool.call, hfree]

end RegPool

/-! ## Calls on a builder -/

namespace Builder

/-- A call on a builder. -/
inductive Call where
  | allocReg (width : Width)
  | dropReg (reg : Reg)
  | push (inst : Inst)
  | startBlock

variable {b : Builder} {history : List PoolEvent}

/-- Makes a call, and tells what it came to for the pool. -/
def call (b : Builder) : Call → List PoolEvent × Builder
  | .allocReg width =>
    match b.allocReg width with
    | .ok (r, b') => ([.alloc (.ok r)], b')
    | .error cause => ([.alloc (.error cause)], b)
  | .dropReg r => ([.free r], b.dropReg r)
  | .push i => ([], b.push i)
  | .startBlock => ([], b.startBlock)

/-- Makes calls one after the other. -/
def run (b : Builder) : List Call → List PoolEvent × Builder
  | [] => ([], b)
  | c :: cs =>
    let (evs, b) := b.call c
    let (evs', b) := b.run cs
    (evs ++ evs', b)

/-- A register is requested from the builder's pool. -/
theorem call_allocReg (b : Builder) (w : Width) : b.call (.allocReg w) =
    ([(b.pool.call (.alloc w)).1], { b with pool := (b.pool.call (.alloc w)).2 }) := by
  simp only [call, allocReg, RegPool.call]
  cases b.pool.alloc w <;> rfl

/-- A register that is dropped goes back to the builder's pool. -/
theorem call_dropReg (b : Builder) (r : Reg) : b.call (.dropReg r) =
    ([(b.pool.call (.free r)).1], { b with pool := (b.pool.call (.free r)).2 }.push (.drop r)) := rfl

/-- **One call keeps the builder's pool in step.** -/
theorem tracks_call (hb : b.pool.Tracks history) (c : Call) : (b.call c).2.pool.Tracks (history ++ (b.call c).1) := by
  cases c with
  | allocReg w =>
    rw [call_allocReg]
    exact hb.call (.alloc w)
  | dropReg r => exact hb.call (.free r)
  | push i => simpa [call, push] using hb
  | startBlock => simpa [call, startBlock] using hb

/-- **Every sequence of calls does.** -/
theorem tracks_run (hb : b.pool.Tracks history) (cs : List Call) :
    (b.run cs).2.pool.Tracks (history ++ (b.run cs).1) := by
  induction cs generalizing b history with
  | nil => simpa [run] using hb
  | cons c cs ih => simpa [run] using ih (tracks_call hb c)

end Builder

/-- **The pool over every history of calls.** Whatever was requested and given back before, a new pool counts the
numbers that are held, answers a request with the least one that is not, refuses it just if there is none, and is left
as it is by a refusal and by getting back what is not held. The pool of a builder does the same, and it is the one
that registers are requested from and that dropped registers go back to. -/
theorem pool_accounts_for_history (e : Edition) :
    (∀ calls, ((RegPool.empty : RegPool e).run calls).2.Accounts (heldIn ((RegPool.empty : RegPool e).run calls).1)) ∧
    (∀ name calls,
      ((Builder.new name e).run calls).2.pool.Accounts (heldIn ((Builder.new name e).run calls).1)) ∧
    ∀ b : Builder,
      (∀ w, b.call (.allocReg w) = ([(b.pool.call (.alloc w)).1], { b with pool := (b.pool.call (.alloc w)).2 })) ∧
      ∀ r, b.call (.dropReg r) =
        ([(b.pool.call (.free r)).1], { b with pool := (b.pool.call (.free r)).2 }.push (.drop r)) := by
  refine ⟨fun calls => ?_, fun name calls => ?_, fun b => ⟨b.call_allocReg, b.call_dropReg⟩⟩
  · exact (RegPool.tracks_empty.run calls).accounts
  · exact (Builder.tracks_run (b := Builder.new name e) RegPool.tracks_empty calls).accounts

end ChillHints
