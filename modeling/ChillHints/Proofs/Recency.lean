import ChillHints.Proofs.Spilling
import Mathlib.Data.List.Induction
import Mathlib.Order.Nat

/-!
# The spilling store spills what was used the longest ago

What happens to a spilling store is a list of calls. When a group was last used is read off the list alone: it is the
number of the latest call that reads or writes the group (`LatestAt`), whatever became of its value since.

A call does one of two things to the registers (`call_cases`). A read or write that is answered puts its group into one
register, with the time (`Serves`): the register that has the group, or else a vacant one, or else the one whose stamp
is the least, whose value is spilled. Every other call vacates a register at most (`Clears`). So three things are kept
by every call, and hold after every list of calls (`tidy_dated_after`):

* no two stamps are the same;
* no stamp is ahead of the clock;
* a stamp is the time of the latest call that used its group.

The clock never goes back, so a lesser stamp is that of an earlier call, and the value that is spilled is the one whose
latest use is the longest ago (`spills_least_recent`).
-/

namespace ChillHints

namespace Spilling

/-! ## Calls -/

/-- A call on a spilling store. -/
inductive Call where
  | read (g : Group)
  | write (g : Group) (v : UInt64)
  | discard (g : Group)
  | evict (g : Group)
deriving DecidableEq, Repr

/-- The group that a call uses, which is to read or to write it. -/
def Call.uses? : Call → Option Group
  | read g => some g
  | write g _ => some g
  | discard _ => none
  | evict _ => none

/-- Makes a call. A read that is refused changes nothing. -/
def call (s : Spilling) : Call → Spilling
  | .read g =>
    match s.read g with
    | .ok (_, s') => s'
    | .error _ => s
  | .write g v => s.write g v
  | .discard g => s.discard g
  | .evict g => s.evict g

/-- The store after calls that were made one after the other, the first of them on an empty store. -/
def after (calls : List Call) : Spilling := calls.foldl call empty

/-- Call number `n` is the latest one that uses `g`. -/
structure LatestAt (calls : List Call) (g : Group) (n : Nat) : Prop where
  uses : calls[n]?.bind Call.uses? = some g
  last : ∀ m, n < m → calls[m]?.bind Call.uses? ≠ some g

/-- The clock was at `time` just after the latest use of `g`. -/
def LastUsedAt (calls : List Call) (g : Group) (time : Nat) : Prop :=
  ∃ n, LatestAt calls g n ∧ time = (after (calls.take (n + 1))).clock

/-- The latest use of `g` comes before that of `h`. -/
def UsedBefore (calls : List Call) (g h : Group) : Prop := ∃ m n, LatestAt calls g m ∧ LatestAt calls h n ∧ m < n

variable {s s' : Spilling} {calls : List Call} {c : Call} {g h : Group} {i j : Fin 4} {r r' : Resident} {v : UInt64}

theorem after_concat (calls : List Call) (c : Call) : after (calls ++ [c]) = (after calls).call c := by
  rw [after, List.foldl_append]
  rfl

theorem LatestAt.lt_length {n : Nat} (hn : LatestAt calls g n) : n < calls.length := by
  obtain ⟨c, hc, -⟩ := Option.bind_eq_some_iff.1 hn.uses
  exact (List.getElem?_eq_some_iff.1 hc).1

/-- Behind the last call there is none that uses a group. -/
theorem uses?_of_length_lt {m : Nat} (calls : List Call) (c : Call) (hm : calls.length < m) :
    (calls ++ [c])[m]?.bind Call.uses? = none := by
  have hlen : (calls ++ [c]).length ≤ m := by
    rw [List.length_append]
    exact hm
  rw [List.getElem?_eq_none hlen, Option.bind_none]

/-- A call that uses a group is its latest use. -/
theorem lastUsedAt_concat (calls : List Call) (hc : c.uses? = some g) :
    LastUsedAt (calls ++ [c]) g (after (calls ++ [c])).clock := by
  refine ⟨calls.length, ⟨by simp [hc], fun m hm => ?_⟩, by rw [List.take_of_length_le (by simp)]⟩
  rw [uses?_of_length_lt calls c hm]
  exact (Option.some_ne_none g).symm

/-- A call that does not use a group leaves its latest use what it was. -/
theorem LatestAt.concat {n : Nat} (hn : LatestAt calls g n) (hc : c.uses? ≠ some g) : LatestAt (calls ++ [c]) g n := by
  refine ⟨?_, fun m hm => ?_⟩
  · rw [List.getElem?_append_left hn.lt_length]
    exact hn.uses
  · rcases Nat.lt_trichotomy m calls.length with hlt | rfl | hlt
    · rw [List.getElem?_append_left hlt]
      exact hn.last m hm
    · simpa using hc
    · rw [uses?_of_length_lt calls c hlt]
      exact (Option.some_ne_none g).symm

theorem LastUsedAt.concat {time : Nat} (h : LastUsedAt calls g time) (hc : c.uses? ≠ some g) :
    LastUsedAt (calls ++ [c]) g time := by
  obtain ⟨n, hn, htime⟩ := h
  refine ⟨n, hn.concat hc, ?_⟩
  rw [List.take_append_of_le_length hn.lt_length]
  exact htime

/-! ## What a call does -/

/-- A value of `g` is put into register `i`, with the time, and the other registers are left alone. -/
structure Takes (s s' : Spilling) (i : Fin 4) (g : Group) : Prop where
  clock_eq : s'.clock = s.clock + 1
  taken : ∃ v, s'.phys.get i = some ⟨g, v, s'.clock⟩
  kept : ∀ j, j ≠ i → s'.phys.get j = s.phys.get j

/-- How a read or a write of `g` that is answered changes the store. -/
inductive Serves (s s' : Spilling) (g : Group) : Prop
  /-- The group has a register. -/
  | hit (i : Fin 4) : s.Seats i g → s.Takes s' i g → (∀ h, h ≠ g → s'.spill.get h = s.spill.get h) → Serves s s' g
  /-- The group has none, and there is a vacant one. -/
  | fill (i : Fin 4) : (∀ j, ¬ s.Seats j g) → s.phys.get i = none → s.Takes s' i g →
      (∀ h, h ≠ g → s'.spill.get h = s.spill.get h) → Serves s s' g
  /-- The group has none, and the value in the register with the least stamp is spilled. -/
  | displace (r : Resident) : (∀ j, ¬ s.Seats j g) → (∀ j, s.phys.get j ≠ none) → s.phys.get s.oldest = some r →
      s.Takes s' s.oldest g → s'.spill.get r.group = some r.value →
      (∀ h, h ≠ g → h ≠ r.group → s'.spill.get h = s.spill.get h) → Serves s s' g

/-- Registers are vacated at most. -/
structure Clears (s s' : Spilling) : Prop where
  clock_eq : s'.clock = s.clock
  resident : ∀ j r, s'.phys.get j = some r → s.phys.get j = some r

theorem Clears.refl (s : Spilling) : s.Clears s := ⟨rfl, fun _ _ h => h⟩

/-- Vacating one register. -/
theorem clears_of_put (hclock : s'.clock = s.clock) (hphys : s'.phys = s.phys.put i none) : s.Clears s' := by
  refine ⟨hclock, fun j r hr => ?_⟩
  rw [hphys, Cells.get_put] at hr
  split at hr
  · cases hr
  · exact hr

theorem takes_of_put (hclock : s'.clock = s.clock + 1) (hphys : s'.phys = s.phys.put i (some ⟨g, v, s'.clock⟩)) :
    s.Takes s' i g := by
  refine ⟨hclock, ⟨v, by rw [hphys, Cells.get_put_self]⟩, fun j hj => ?_⟩
  rw [hphys, Cells.get_put_of_ne _ (Ne.symm hj)]

theorem vacant?_eq_none : s.vacant? = none ↔ ∀ i, s.phys.get i ≠ none := by
  simp [vacant?, List.find?_eq_none]

theorem get_of_vacant? (hi : s.vacant? = some i) : s.phys.get i = none := by
  unfold vacant? at hi
  have hnone := List.find?_some hi
  exact Option.isNone_iff_eq_none.1 hnone

/-- Placing a value of a group that has a register. -/
theorem place_of_find? (hi : s.find? g = some i) (v : UInt64) :
    s.place g v = { s with clock := s.clock + 1, phys := s.phys.put i (some ⟨g, v, s.clock + 1⟩) } := by
  have hi' : find? { s with clock := s.clock + 1 } g = some i := hi
  simp only [place, hi']

/-- Placing a value when a register is vacant. -/
theorem place_of_vacant? (hg : s.find? g = none) (hi : s.vacant? = some i) (v : UInt64) :
    s.place g v = { s with clock := s.clock + 1, phys := s.phys.put i (some ⟨g, v, s.clock + 1⟩) } := by
  have hg' : find? { s with clock := s.clock + 1 } g = none := hg
  have hi' : vacant? { s with clock := s.clock + 1 } = some i := hi
  simp only [place, hg', makeRoom, hi']

/-- Placing a value when no register is vacant. -/
theorem place_of_full (hg : s.find? g = none) (hfull : s.vacant? = none) (hr : s.phys.get s.oldest = some r)
    (v : UInt64) : s.place g v =
      { s with
        clock := s.clock + 1
        phys := (s.phys.put s.oldest none).put s.oldest (some ⟨g, v, s.clock + 1⟩)
        spill := s.spill.put r.group (some r.value) } := by
  have hg' : find? { s with clock := s.clock + 1 } g = none := hg
  have hfull' : vacant? { s with clock := s.clock + 1 } = none := hfull
  have holdest : oldest { s with clock := s.clock + 1 } = s.oldest := rfl
  simp only [place, hg', makeRoom, hfull', holdest, evictPhys, hr]

/-- Placing a value serves its group. -/
theorem serves_place (s : Spilling) (g : Group) (v : UInt64) : s.Serves (s.place g v) g := by
  cases hi : s.find? g with
  | some i =>
    rw [place_of_find? hi]
    exact .hit i (seats_of_find? hi) (takes_of_put rfl rfl) fun _ _ => rfl
  | none =>
    have hseats := find?_eq_none.1 hi
    cases hvacant : s.vacant? with
    | some i =>
      rw [place_of_vacant? hi hvacant]
      exact .fill i hseats (get_of_vacant? hvacant) (takes_of_put rfl rfl) fun _ _ => rfl
    | none =>
      have hfull := vacant?_eq_none.1 hvacant
      obtain ⟨r, hr⟩ := Option.ne_none_iff_exists'.1 (hfull s.oldest)
      rw [place_of_full hi hvacant hr]
      refine .displace r hseats hfull hr ⟨rfl, ⟨v, Cells.get_put_self ..⟩, fun j hj => ?_⟩ (Cells.get_put_self ..) ?_
      · exact (Cells.get_put_of_ne _ (Ne.symm hj) _).trans (Cells.get_put_of_ne _ (Ne.symm hj) _)
      · exact fun h _ hh => Cells.get_put_of_ne _ (Ne.symm hh) _

/-- What is in the spill slot of a group does not matter when the group is served. -/
theorem Serves.of_clearSlot {reloads : Nat} (h : Serves { s with spill := s.spill.put g none, reloads } s' g) :
    s.Serves s' g := by
  have hslot : ∀ x, x ≠ g → (s.spill.put g none).get x = s.spill.get x :=
    fun x hx => Cells.get_put_of_ne _ (Ne.symm hx) _
  cases h with
  | hit i hseat htakes hspill =>
    exact .hit i hseat ⟨htakes.clock_eq, htakes.taken, htakes.kept⟩ fun x hx => (hspill x hx).trans (hslot x hx)
  | fill i hseats hi htakes hspill =>
    exact .fill i hseats hi ⟨htakes.clock_eq, htakes.taken, htakes.kept⟩ fun x hx => (hspill x hx).trans (hslot x hx)
  | displace r hseats hfull hr htakes hspilled hspill =>
    exact .displace r hseats hfull hr ⟨htakes.clock_eq, htakes.taken, htakes.kept⟩ hspilled
      fun x hx hxr => (hspill x hx hxr).trans (hslot x hx)

/-- A read that is answered serves its group. -/
theorem serves_read (h : s.read g = .ok (v, s')) : s.Serves s' g := by
  unfold Spilling.read at h
  cases hi : s.find? g with
  | some i =>
    obtain ⟨r, hr, -⟩ := seats_of_find? hi
    simp only [hi, Option.bind_some, hr, Option.map_some] at h
    cases h
    exact .hit i (seats_of_find? hi) (takes_of_put rfl rfl) fun _ _ => rfl
  | none =>
    simp only [hi, Option.bind_none] at h
    cases hslot : s.spill.get g with
    | none =>
      rw [hslot] at h
      cases h
    | some w =>
      rw [hslot] at h
      cases h
      exact (serves_place _ g v).of_clearSlot

/-- A read is refused just if the group has neither a register nor a value in its spill slot. -/
theorem exists_read_eq_error : (∃ f, s.read g = .error f) ↔ (∀ i, ¬ s.Seats i g) ∧ s.spill.get g = none := by
  rw [← find?_eq_none]
  unfold Spilling.read
  cases hi : s.find? g with
  | some i =>
    obtain ⟨r, hr, -⟩ := seats_of_find? hi
    simp [hr]
  | none => cases s.spill.get g <;> simp

theorem call_of_read_ok {a : UInt64 × Spilling} (h : s.read g = .ok a) : s.call (.read g) = a.2 := by
  simp only [call, h]

theorem call_of_read_error {f : Fault} (h : s.read g = .error f) : s.call (.read g) = s := by
  simp only [call, h]

theorem serves_write (s : Spilling) (g : Group) (v : UInt64) : s.Serves (s.write g v) g :=
  (serves_place { s with spill := s.spill.put g none } g v).of_clearSlot

theorem clears_discard (s : Spilling) (g : Group) : s.Clears (s.discard g) := by
  unfold Spilling.discard
  cases s.find? g with
  | none => exact ⟨rfl, fun _ _ h => h⟩
  | some i => exact clears_of_put rfl rfl

theorem clears_evictPhys (s : Spilling) (i : Fin 4) : s.Clears (s.evictPhys i) := by
  cases hr : s.phys.get i with
  | none =>
    rw [evictPhys_of_none hr]
    exact .refl s
  | some r =>
    rw [evictPhys_of_some hr]
    exact clears_of_put rfl rfl

theorem clears_evict (s : Spilling) (g : Group) : s.Clears (s.evict g) := by
  unfold Spilling.evict
  cases s.find? g with
  | none => exact .refl s
  | some i => exact clears_evictPhys s i

/-- **What a call can do.** It serves the group that it uses, or it vacates registers at most, and then the group that it
uses, if there is one, has no register. -/
theorem call_cases (s : Spilling) (c : Call) : (∃ g, c.uses? = some g ∧ s.Serves (s.call c) g) ∨
    s.Clears (s.call c) ∧ ∀ g, c.uses? = some g → ∀ i, ¬ s.Seats i g := by
  cases c with
  | read g =>
    cases hread : s.read g with
    | ok a =>
      refine Or.inl ⟨g, rfl, ?_⟩
      rw [call_of_read_ok hread]
      exact serves_read hread
    | error f =>
      refine Or.inr ⟨?_, fun g' hg' => ?_⟩
      · rw [call_of_read_error hread]
        exact .refl s
      · cases hg'
        exact (exists_read_eq_error.1 ⟨f, hread⟩).1
  | write g v => exact Or.inl ⟨g, rfl, serves_write s g v⟩
  | discard g => exact Or.inr ⟨clears_discard s g, fun _ h => by cases h⟩
  | evict g => exact Or.inr ⟨clears_evict s g, fun _ h => by cases h⟩

/-! ## Stamps -/

/-- A resident after a value of `g` has been put into register `i`: the new one, or one that was there before. -/
theorem Takes.resident (h : s.Takes s' i g) (hr : s'.phys.get j = some r) :
    j = i ∧ r.group = g ∧ r.stamp = s'.clock ∨ j ≠ i ∧ s.phys.get j = some r := by
  by_cases hj : j = i
  · subst hj
    obtain ⟨v, hv⟩ := h.taken
    cases hv.symm.trans hr
    exact Or.inl ⟨rfl, rfl, rfl⟩
  · exact Or.inr ⟨hj, (h.kept j hj).symm.trans hr⟩

/-- However a group is served, it is put into a register. -/
theorem Serves.exists_takes (h : s.Serves s' g) : ∃ i, s.Takes s' i g := by
  cases h with
  | hit i _ htakes _ => exact ⟨i, htakes⟩
  | fill i _ _ htakes _ => exact ⟨i, htakes⟩
  | displace r _ _ _ htakes _ _ => exact ⟨s.oldest, htakes⟩

/-- The stamps of the residents tell when their groups were last used. -/
structure Dated (calls : List Call) (s : Spilling) : Prop where
  distinct : ∀ {i j r r'}, s.phys.get i = some r → s.phys.get j = some r' → i ≠ j → r.stamp ≠ r'.stamp
  le_clock : ∀ {i r}, s.phys.get i = some r → r.stamp ≤ s.clock
  latest : ∀ {i r}, s.phys.get i = some r → LastUsedAt calls r.group r.stamp

/-- Putting a value into a register gives it a stamp of its own. -/
theorem Dated.takes (h : (after calls).Dated calls) (t : (after (calls ++ [c])).Tidy) (hc : c.uses? = some g)
    (htakes : (after calls).Takes (after (calls ++ [c])) i g) : (after (calls ++ [c])).Dated (calls ++ [c]) := by
  have hclock := htakes.clock_eq
  -- a resident from before is not of `g`, and its stamp is behind the new one
  have hother : ∀ {j r}, j ≠ i → (after calls).phys.get j = some r →
      c.uses? ≠ some r.group ∧ r.stamp < (after (calls ++ [c])).clock := by
    intro j r hj hr
    obtain ⟨v, hv⟩ := htakes.taken
    have hle := h.le_clock hr
    refine ⟨fun hg => hj (t.once ⟨r, (htakes.kept j hj).trans hr, ?_⟩ ⟨_, hv, rfl⟩), by omega⟩
    exact Option.some.inj (hg.symm.trans hc)
  refine ⟨fun {j k r r'} hr hr' hne => ?_, fun {j r} hr => ?_, fun {j r} hr => ?_⟩
  · rcases htakes.resident hr with ⟨rfl, -, hstamp⟩ | ⟨hj, hr⟩ <;>
      rcases htakes.resident hr' with ⟨rfl, -, hstamp'⟩ | ⟨hk, hr'⟩
    · exact absurd rfl hne
    · have := (hother hk hr').2
      omega
    · have := (hother hj hr).2
      omega
    · exact h.distinct hr hr' hne
  · rcases htakes.resident hr with ⟨-, -, hstamp⟩ | ⟨hj, hr⟩
    · omega
    · exact Nat.le_of_lt (hother hj hr).2
  · rcases htakes.resident hr with ⟨-, rfl, hstamp⟩ | ⟨hj, hr⟩
    · rw [hstamp]
      exact lastUsedAt_concat calls hc
    · exact (h.latest hr).concat (hother hj hr).1

/-- Vacating registers leaves the other stamps alone. -/
theorem Dated.clears (h : (after calls).Dated calls) (hclears : (after calls).Clears (after (calls ++ [c])))
    (hc : ∀ g, c.uses? = some g → ∀ i, ¬ (after calls).Seats i g) : (after (calls ++ [c])).Dated (calls ++ [c]) := by
  refine ⟨fun hr hr' => h.distinct (hclears.resident _ _ hr) (hclears.resident _ _ hr'), fun hr => ?_, fun hr => ?_⟩
  · rw [hclears.clock_eq]
    exact h.le_clock (hclears.resident _ _ hr)
  · have hr₀ := hclears.resident _ _ hr
    exact (h.latest hr₀).concat fun hg => hc _ hg _ ⟨_, hr₀, rfl⟩

theorem Tidy.call (t : s.Tidy) (c : Call) : (s.call c).Tidy := by
  cases c with
  | read g =>
    cases hread : s.read g with
    | ok a =>
      rw [call_of_read_ok hread]
      exact (t.of_read hread).2.1
    | error f =>
      rw [call_of_read_error hread]
      exact t
  | write g v => exact (t.write g v).1
  | discard g => exact (t.discard g).1
  | evict g => exact (t.evict g).1

/-- **After every list of calls each value is in one place, and the stamps tell when they were last used.** -/
theorem tidy_dated_after (calls : List Call) : (after calls).Tidy ∧ (after calls).Dated calls := by
  induction calls using List.reverseRecOn with
  | nil =>
    refine ⟨tidy_empty, ?_, ?_, ?_⟩ <;> simp [after, empty]
  | append_singleton calls c ih =>
    obtain ⟨t, h⟩ := ih
    have t' : (after (calls ++ [c])).Tidy := by
      rw [after_concat]
      exact t.call c
    refine ⟨t', ?_⟩
    rcases call_cases (after calls) c with ⟨g, hc, hserves⟩ | ⟨hclears, hseats⟩
    · rw [← after_concat] at hserves
      obtain ⟨i, htakes⟩ := hserves.exists_takes
      exact h.takes t' hc htakes
    · rw [← after_concat] at hclears
      exact h.clears hclears hseats

/-! ## The least recent use -/

theorem clock_le_call (s : Spilling) (c : Call) : s.clock ≤ (s.call c).clock := by
  rcases call_cases s c with ⟨g, -, hserves⟩ | ⟨hclears, -⟩
  · obtain ⟨i, htakes⟩ := hserves.exists_takes
    have := htakes.clock_eq
    omega
  · exact Nat.le_of_eq hclears.clock_eq.symm

/-- The clock never goes back. -/
theorem clock_take_le {m n : Nat} (h : m ≤ n) (calls : List Call) :
    (after (calls.take m)).clock ≤ (after (calls.take n)).clock := by
  induction n, h using Nat.le_induction with
  | base => exact Nat.le_refl _
  | succ n _ ih =>
    refine Nat.le_trans ih ?_
    rw [List.take_add_one]
    cases calls[n]? with
    | none => rw [Option.toList_none, List.append_nil]
    | some c =>
      rw [Option.toList_some, after_concat]
      exact clock_le_call _ c

/-- A lesser stamp is that of an earlier use. -/
theorem Dated.usedBefore (h : (after calls).Dated calls) (hr : (after calls).phys.get i = some r)
    (hr' : (after calls).phys.get j = some r') (hlt : r.stamp < r'.stamp) : UsedBefore calls r.group r'.group := by
  obtain ⟨m, hm, hstamp⟩ := h.latest hr
  obtain ⟨n, hn, hstamp'⟩ := h.latest hr'
  refine ⟨m, n, hm, hn, Nat.lt_of_not_le fun hle => ?_⟩
  have := clock_take_le (Nat.add_le_add_right hle 1) calls
  omega

/-- Going through registers, the one with the least stamp so far is kept. -/
theorem stamp_foldl_le (s : Spilling) (is : List (Fin 4)) (best : Fin 4) :
    ∀ i ∈ best :: is, s.stamp (is.foldl (fun best i => if s.stamp i < s.stamp best then i else best) best) ≤
      s.stamp i := by
  induction is generalizing best with
  | nil => simp
  | cons j is ih =>
    have hif : s.stamp (if s.stamp j < s.stamp best then j else best) ≤ s.stamp best ∧
        s.stamp (if s.stamp j < s.stamp best then j else best) ≤ s.stamp j := by
      split <;> omega
    rw [List.foldl_cons]
    intro i hi
    rcases List.mem_cons.1 hi with rfl | hi
    · exact Nat.le_trans (ih _ _ List.mem_cons_self) hif.1
    · rcases List.mem_cons.1 hi with rfl | hi
      · exact Nat.le_trans (ih _ _ List.mem_cons_self) hif.2
      · exact ih _ i (List.mem_cons_of_mem _ hi)

theorem stamp_oldest_le (s : Spilling) (i : Fin 4) : s.stamp s.oldest ≤ s.stamp i :=
  stamp_foldl_le s [1, 2, 3] 0 i (by revert i; decide)

/-- No other resident is older than the one in the register with the least stamp. -/
theorem Dated.oldest_lt (h : s.Dated calls) (hr : s.phys.get s.oldest = some r) (hj : j ≠ s.oldest)
    (hr' : s.phys.get j = some r') : r.stamp < r'.stamp := by
  have hle := stamp_oldest_le s j
  simp only [stamp, hr, hr', Option.map_some, Option.getD_some] at hle
  exact Nat.lt_of_le_of_ne hle (h.distinct hr hr' (Ne.symm hj))

/-- The call has to free a register for `g`: it writes `g`, or reads it from its spill slot, while all registers hold
values of other groups. -/
structure NeedsRoom (s : Spilling) (c : Call) (g : Group) : Prop where
  call_eq : c = .read g ∧ s.spill.get g ≠ none ∨ ∃ v, c = .write g v
  full : ∀ i, ∃ r ∈ s.phys.get i, r.group ≠ g

/-- The call `c`, made after `calls`, moves the value in register `i` to its spill slot and puts `g` in its place. -/
structure MakesRoom (calls : List Call) (c : Call) (g : Group) (i : Fin 4) (r : Resident) : Prop where
  resident : (after calls).phys.get i = some r
  /-- The other three were used later. -/
  least : ∀ j r', j ≠ i → (after calls).phys.get j = some r' → UsedBefore calls r.group r'.group
  /-- The value is spilled as it was. -/
  spilled : (after (calls ++ [c])).spill.get r.group = some r.value
  /-- Nothing else is spilled. -/
  spared : ∀ h, h ≠ g → h ≠ r.group → (after (calls ++ [c])).spill.get h = (after calls).spill.get h
  takes : (after calls).Takes (after (calls ++ [c])) i g

/-- A call that has to free a register is answered. -/
theorem NeedsRoom.serves (h : s.NeedsRoom c g) : s.Serves (s.call c) g := by
  rcases h.call_eq with ⟨rfl, hslot⟩ | ⟨v, rfl⟩
  · cases hread : s.read g with
    | ok a =>
      rw [call_of_read_ok hread]
      exact serves_read hread
    | error f => exact absurd (exists_read_eq_error.1 ⟨f, hread⟩).2 hslot
  · exact serves_write s g v

theorem NeedsRoom.makesRoom (h : (after calls).NeedsRoom c g) : ∃ i r, MakesRoom calls c g i r := by
  have hdated := (tidy_dated_after calls).2
  have hserves := h.serves
  rw [← after_concat] at hserves
  cases hserves with
  | hit i hseat _ _ =>
    obtain ⟨r, hr, hne⟩ := h.full i
    exact absurd (Seats.unique ⟨r, hr, rfl⟩ hseat) hne
  | fill i _ hi _ _ =>
    obtain ⟨r, hr, -⟩ := h.full i
    cases hi.symm.trans hr
  | displace r _ _ hr htakes hspilled hspared =>
    refine ⟨_, r, hr, fun j r' hj hr' => ?_, hspilled, hspared, htakes⟩
    exact hdated.usedBefore hr hr' (hdated.oldest_lt hr hj hr')

/-- When the slot of another group changes, no register holds `g` and none is vacant. -/
theorem Serves.full (hs : s.Serves s' g) (hh : h ≠ g) (hslot : s'.spill.get h ≠ s.spill.get h) :
    (∀ i, ¬ s.Seats i g) ∧ ∀ i, ∃ r ∈ s.phys.get i, r.group ≠ g := by
  cases hs with
  | hit _ _ _ hspill => exact absurd (hspill h hh) hslot
  | fill _ _ _ _ hspill => exact absurd (hspill h hh) hslot
  | displace _ hseats hfull _ _ _ _ =>
    refine ⟨hseats, fun i => ?_⟩
    obtain ⟨r, hr⟩ := Option.ne_none_iff_exists'.1 (hfull i)
    exact ⟨r, hr, fun hg => hseats i ⟨r, hr, hg⟩⟩

/-- **A read or write changes the spill slot of another group only if it has to free a register.** -/
theorem needsRoom_of_slot_ne (hc : c.uses? = some g) (hh : h ≠ g)
    (hslot : (s.call c).spill.get h ≠ s.spill.get h) : s.NeedsRoom c g := by
  cases c with
  | read g' =>
    cases hc
    cases hread : s.read g with
    | error f => exact absurd (by rw [call_of_read_error hread]) hslot
    | ok a =>
      rw [call_of_read_ok hread] at hslot
      obtain ⟨hseats, hfull⟩ := (serves_read hread).full hh hslot
      refine ⟨Or.inl ⟨rfl, fun hnone => ?_⟩, hfull⟩
      obtain ⟨f, hf⟩ := exists_read_eq_error.2 ⟨hseats, hnone⟩
      cases hread.symm.trans hf
  | write g' v =>
    cases hc
    exact ⟨Or.inr ⟨v, rfl⟩, ((serves_write s g v).full hh hslot).2⟩
  | discard g' => cases hc
  | evict g' => cases hc

/-- **The spilling store spills what was used the longest ago.** After every list of calls, each value is in one place,
the stamps are distinct and not ahead of the clock, and each is the time of the latest use of its group. When a read or
a write has to free a register, the value whose latest use comes before those of the other three is spilled as it is,
and at no other read or write is anything spilled. -/
theorem spills_least_recent (calls : List Call) : (after calls).Tidy ∧ (after calls).Dated calls ∧
    (∀ c g, (after calls).NeedsRoom c g → ∃ i r, MakesRoom calls c g i r) ∧
    ∀ c g h, c.uses? = some g → h ≠ g → (after (calls ++ [c])).spill.get h ≠ (after calls).spill.get h →
      (after calls).NeedsRoom c g := by
  obtain ⟨htidy, hdated⟩ := tidy_dated_after calls
  refine ⟨htidy, hdated, fun c g hroom => hroom.makesRoom, fun c g h hc hh hslot => ?_⟩
  rw [after_concat] at hslot
  exact needsRoom_of_slot_ne hc hh hslot

/-- Four groups are in registers. The first one is used again, the third one is spilled and reloaded, a group without a
value is read in vain, and another one is dropped. Then a fifth group takes the place of the second one. -/
theorem fifth_spills_second : ∃ calls : List Call,
    calls = [.write 0 10, .write 1 11, .write 2 12, .write 3 13, .read 0, .evict 2, .read 2, .read 5, .discard 6] ∧
    (after calls).NeedsRoom (.write 4 14) 4 ∧ (∃ i r, MakesRoom calls (.write 4 14) 4 i r) ∧
    (after (calls ++ [.write 4 14])).spill.get 1 = some 11 := by
  refine ⟨_, rfl, ?_, ?_, by decide +kernel⟩
  · exact ⟨Or.inr ⟨14, rfl⟩, by decide +kernel⟩
  · exact (spills_least_recent _).2.2.1 _ _ ⟨Or.inr ⟨14, rfl⟩, by decide +kernel⟩

end Spilling

end ChillHints
