import ChillHints.Machine.Spilling
import Mathlib.Data.List.FinRange

/-!
# What the spilling store holds

A value is in one place at a time: no group is in two registers, and none is both in a register and in its spill slot
(`Tidy`). So it makes sense to ask what the store holds for a group (`contents`), and every operation keeps the store
tidy and does to its contents what its name says, wherever it moves values for that: `Tidy.read`, `Tidy.write`,
`Tidy.discard`, `Tidy.evict`. What an eviction does to the registers and slots themselves is `Tidy.evict_vacates`.

Only three things happen to the places themselves. A value is put into a register (`Tidy.seat`), a register is
cleared, which may fill the spill slot (`Tidy.unseat`), or a spill slot is emptied (`Tidy.clearSlot`).
-/

namespace ChillHints

namespace Spilling

variable {s s' : Spilling} {g h : Group} {i j : Fin 4} {r : Resident} {v : UInt64}

/-- Register `i` holds a value of `g`. -/
def Seats (s : Spilling) (i : Fin 4) (g : Group) : Prop := ∃ r, s.phys.get i = some r ∧ r.group = g

theorem Seats.unique (hg : s.Seats i g) (hh : s.Seats i h) : g = h := by
  obtain ⟨r, hr, rfl⟩ := hg
  obtain ⟨r', hr', rfl⟩ := hh
  cases hr.symm.trans hr'
  rfl

/-- Every value is in one place. -/
structure Tidy (s : Spilling) : Prop where
  once : ∀ {i j g}, s.Seats i g → s.Seats j g → i = j
  apart : ∀ {i g}, s.Seats i g → s.spill.get g = none

/-- The value of `g`, wherever it is. -/
def contents (s : Spilling) (g : Group) : Option UInt64 :=
  match s.find? g with
  | some i => (s.phys.get i).map Resident.value
  | none => s.spill.get g

/-! ## Looking up a value -/

theorem any_group_iff : (s.phys.get i).any (·.group == g) = true ↔ s.Seats i g := by
  simp [Seats, Option.any_eq_true]

theorem seats_of_find? (hi : s.find? g = some i) : s.Seats i g := by
  unfold find? at hi
  have := List.find?_some hi
  exact any_group_iff.1 this

theorem find?_eq_none : s.find? g = none ↔ ∀ i, ¬ s.Seats i g := by
  simp only [find?, List.find?_eq_none, List.mem_finRange, any_group_iff, forall_const]

theorem Tidy.find?_eq (t : s.Tidy) (hi : s.Seats i g) : s.find? g = some i := by
  cases hj : s.find? g with
  | none => exact absurd hi (find?_eq_none.1 hj i)
  | some j => rw [t.once (seats_of_find? hj) hi]

theorem Tidy.contents_eq (t : s.Tidy) (hr : s.phys.get i = some r) : s.contents r.group = some r.value := by
  simp only [contents, t.find?_eq ⟨r, hr, rfl⟩, hr, Option.map_some]

theorem contents_of_not_seated (hg : ∀ i, ¬ s.Seats i g) : s.contents g = s.spill.get g := by
  rw [contents, find?_eq_none.2 hg]

/-- A group without a value is in no register, and its spill slot is empty. -/
theorem contents_eq_none (hg : s.contents g = none) : (∀ i, ¬ s.Seats i g) ∧ s.spill.get g = none := by
  cases hi : s.find? g with
  | none =>
    rw [contents, hi] at hg
    exact ⟨find?_eq_none.1 hi, hg⟩
  | some i =>
    obtain ⟨r, hr, -⟩ := seats_of_find? hi
    simp only [contents, hi, hr, Option.map_some, reduceCtorEq] at hg

/-- The contents of a group depend on the registers that hold it and on its spill slot. -/
theorem contents_congr (hphys : ∀ j, s'.phys.get j = s.phys.get j ∨ ¬ s'.Seats j h ∧ ¬ s.Seats j h)
    (hspill : s'.spill.get h = s.spill.get h) : s'.contents h = s.contents h := by
  have hany : ∀ j, (s'.phys.get j).any (·.group == h) = (s.phys.get j).any (·.group == h) := by
    intro j
    rcases hphys j with heq | ⟨h₁, h₂⟩
    · rw [heq]
    · rw [← any_group_iff, Bool.not_eq_true] at h₁ h₂
      rw [h₁, h₂]
  have hfind : s'.find? h = s.find? h := by simp only [find?, hany]
  rw [contents, hfind, contents]
  cases hj : s.find? h with
  | none => exact hspill
  | some j =>
    rcases hphys j with heq | ⟨-, hno⟩
    · simp only [heq]
    · exact absurd (seats_of_find? hj) hno

/-! ## Moving values -/

/-- Putting a value into a register that is vacant or holds the group already. -/
theorem Tidy.seat (t : s.Tidy) {stamp : Nat} (hg : ∀ j, s.Seats j g → j = i) (hi : ∀ h, s.Seats i h → h = g)
    (hslot : s.spill.get g = none) (hphys : s'.phys = s.phys.put i (some ⟨g, v, stamp⟩)) (hspill : s'.spill = s.spill) :
    s'.Tidy ∧ ∀ h, s'.contents h = if g = h then some v else s.contents h := by
  have hget : s'.phys.get i = some ⟨g, v, stamp⟩ := by rw [hphys, Cells.get_put_self]
  have hother : ∀ {j}, j ≠ i → s'.phys.get j = s.phys.get j := by
    intro j hj
    rw [hphys, Cells.get_put_of_ne _ (Ne.symm hj)]
  have hseats : ∀ {j h}, s'.Seats j h → j = i ∧ h = g ∨ j ≠ i ∧ s.Seats j h := by
    rintro j h ⟨r, hr, rfl⟩
    by_cases hj : j = i
    · subst hj
      cases hget.symm.trans hr
      exact Or.inl ⟨rfl, rfl⟩
    · exact Or.inr ⟨hj, r, by rw [← hother hj]; exact hr, rfl⟩
  have ht : s'.Tidy := by
    refine ⟨fun {j k h} hj hk => ?_, fun {j h} hj => ?_⟩
    · rcases hseats hj with ⟨rfl, rfl⟩ | ⟨hne, hj⟩ <;> rcases hseats hk with ⟨rfl, hh⟩ | ⟨hne', hk⟩
      · rfl
      · exact absurd (hg k hk) hne'
      · subst hh; exact absurd (hg j hj) hne
      · exact t.once hj hk
    · rw [hspill]
      rcases hseats hj with ⟨-, rfl⟩ | ⟨-, hj⟩
      · exact hslot
      · exact t.apart hj
  refine ⟨ht, fun h => ?_⟩
  by_cases hh : g = h
  · subst hh
    rw [if_pos rfl]
    exact ht.contents_eq hget
  · rw [if_neg hh]
    refine contents_congr (fun j => ?_) (by rw [hspill])
    by_cases hj : j = i
    · subst hj
      exact Or.inr ⟨fun hseat => hh (Seats.unique ⟨_, hget, rfl⟩ hseat), fun hseat => hh (hi h hseat).symm⟩
    · exact Or.inl (hother hj)

/-- Putting the same value into a register again. -/
theorem Tidy.reseat (t : s.Tidy) {stamp : Nat} (hr : s.phys.get i = some r)
    (hphys : s'.phys = s.phys.put i (some ⟨r.group, r.value, stamp⟩)) (hspill : s'.spill = s.spill) :
    s'.Tidy ∧ ∀ h, s'.contents h = s.contents h := by
  have hseat : s.Seats i r.group := ⟨r, hr, rfl⟩
  obtain ⟨ht, hcontents⟩ :=
    t.seat (fun j hj => t.once hj hseat) (fun h hh => hh.unique hseat) (t.apart hseat) hphys hspill
  refine ⟨ht, fun h => ?_⟩
  rw [hcontents]
  split
  · subst h; exact (t.contents_eq hr).symm
  · rfl

/-- Clearing a register, with a change to the spill slot of the group that it held. -/
theorem Tidy.unseat (t : s.Tidy) {x : Option UInt64} (hr : s.phys.get i = some r)
    (hphys : s'.phys = s.phys.put i none) (hspill : s'.spill = s.spill.put r.group x) :
    s'.Tidy ∧ ∀ h, s'.contents h = if r.group = h then x else s.contents h := by
  have hget : s'.phys.get i = none := by rw [hphys, Cells.get_put_self]
  have hother : ∀ {j}, j ≠ i → s'.phys.get j = s.phys.get j := by
    intro j hj
    rw [hphys, Cells.get_put_of_ne _ (Ne.symm hj)]
  have hseats : ∀ {j h}, s'.Seats j h → s.Seats j h ∧ h ≠ r.group := by
    rintro j h ⟨r', hr', rfl⟩
    have hj : j ≠ i := by rintro rfl; cases hget.symm.trans hr'
    rw [hother hj] at hr'
    exact ⟨⟨r', hr', rfl⟩, fun heq => hj (t.once ⟨r', hr', heq⟩ ⟨r, hr, rfl⟩)⟩
  have hslot : ∀ {h}, r.group ≠ h → s'.spill.get h = s.spill.get h := by
    intro h hh
    rw [hspill, Cells.get_put_of_ne _ hh]
  refine ⟨⟨fun hj hk => t.once (hseats hj).1 (hseats hk).1, fun hj => ?_⟩, fun h => ?_⟩
  · rw [hslot (hseats hj).2.symm]
    exact t.apart (hseats hj).1
  · by_cases hh : r.group = h
    · subst hh
      rw [if_pos rfl, contents_of_not_seated fun j hj => (hseats hj).2 rfl, hspill, Cells.get_put_self]
    · rw [if_neg hh]
      refine contents_congr (fun j => ?_) (hslot hh)
      by_cases hj : j = i
      · subst hj
        refine Or.inr ⟨?_, fun hseat => hh (Seats.unique ⟨r, hr, rfl⟩ hseat)⟩
        rintro ⟨r', hr', -⟩
        cases hget.symm.trans hr'
      · exact Or.inl (hother hj)

/-- Emptying a spill slot. -/
theorem Tidy.clearSlot (t : s.Tidy) (hphys : s'.phys = s.phys) (hspill : s'.spill = s.spill.put g none) :
    s'.Tidy ∧ s'.spill.get g = none ∧ ∀ h, g ≠ h → s'.contents h = s.contents h := by
  have hseats : ∀ j h, s'.Seats j h ↔ s.Seats j h := by simp only [Seats, hphys, implies_true]
  refine ⟨⟨fun hj hk => t.once ((hseats _ _).1 hj) ((hseats _ _).1 hk), fun hj => ?_⟩, ?_, fun h hh => ?_⟩
  · rw [hspill, Cells.get_put, t.apart ((hseats _ _).1 hj), ite_self]
  · rw [hspill, Cells.get_put_self]
  · exact contents_congr (fun j => Or.inl (by rw [hphys])) (by rw [hspill, Cells.get_put_of_ne _ hh])

/-! ## The operations -/

theorem tidy_empty : empty.Tidy := by
  refine ⟨?_, ?_⟩ <;> rintro _ _ <;> simp [Seats, empty]

theorem contents_empty (g : Group) : empty.contents g = none := by
  rw [contents_of_not_seated] <;> simp [Seats, empty]

theorem evictPhys_of_none (hr : s.phys.get i = none) : s.evictPhys i = s := by
  simp only [Spilling.evictPhys, hr]

theorem evictPhys_of_some (hr : s.phys.get i = some r) :
    s.evictPhys i = { s with phys := s.phys.put i none, spill := s.spill.put r.group (some r.value) } := by
  simp only [Spilling.evictPhys, hr]

/-- Moving a value to its spill slot changes nothing of what is held. -/
theorem Tidy.evictPhys (t : s.Tidy) (i : Fin 4) :
    (s.evictPhys i).Tidy ∧ (∀ h, (s.evictPhys i).contents h = s.contents h) ∧ (s.evictPhys i).phys.get i = none := by
  cases hr : s.phys.get i with
  | none =>
    rw [evictPhys_of_none hr]
    exact ⟨t, fun _ => rfl, hr⟩
  | some r =>
    have heq := evictPhys_of_some hr
    obtain ⟨ht, hcontents⟩ := t.unseat hr (congrArg phys heq) (congrArg spill heq)
    refine ⟨ht, fun h => ?_, by rw [heq, Cells.get_put_self]⟩
    rw [hcontents]
    split
    · subst h; exact (t.contents_eq hr).symm
    · rfl

theorem Tidy.makeRoom (t : s.Tidy) : s.makeRoom.2.Tidy ∧ (∀ h, s.makeRoom.2.contents h = s.contents h) ∧
    s.makeRoom.2.phys.get s.makeRoom.1 = none := by
  unfold Spilling.makeRoom
  cases hi : s.vacant? with
  | none => exact t.evictPhys s.oldest
  | some i =>
    unfold vacant? at hi
    have hvacant := List.find?_some hi
    exact ⟨t, fun _ => rfl, Option.isNone_iff_eq_none.1 hvacant⟩

/-- Placing a value of a group whose spill slot is empty. -/
theorem Tidy.place (t : s.Tidy) (hslot : s.spill.get g = none) (v : UInt64) :
    (s.place g v).Tidy ∧ ∀ h, (s.place g v).contents h = if g = h then some v else s.contents h := by
  -- The clock has no say in where values are.
  obtain ⟨s₁, hs₁⟩ : ∃ s₁ : Spilling, s₁ = { s with clock := s.clock + 1 } := ⟨_, rfl⟩
  have t₁ : s₁.Tidy := by subst hs₁; exact ⟨t.once, t.apart⟩
  have hcontents₁ : ∀ h, s₁.contents h = s.contents h := by subst hs₁; exact fun _ => rfl
  have hslot₁ : s₁.spill.get g = none := by subst hs₁; exact hslot
  unfold Spilling.place
  simp only [← hs₁, ← hcontents₁]
  cases hi : s₁.find? g with
  | some i =>
    have hseat := seats_of_find? hi
    exact t₁.seat (fun j hj => t₁.once hj hseat) (fun h hh => hh.unique hseat) hslot₁ rfl rfl
  | none =>
    obtain ⟨t₂, hcontents₂, hvacant⟩ := t₁.makeRoom
    have hnone : s₁.contents g = none := by rw [contents_of_not_seated (find?_eq_none.1 hi), hslot₁]
    obtain ⟨hseats, hslot₂⟩ := contents_eq_none ((hcontents₂ g).trans hnone)
    simp only [← hcontents₂]
    refine t₂.seat (fun j hj => absurd hj (hseats j)) (fun h hh => ?_) hslot₂ rfl rfl
    obtain ⟨r, hr, -⟩ := hh
    cases hvacant.symm.trans hr

/-- A read gives the value that is held, and changes nothing of what is held. -/
theorem Tidy.read (t : s.Tidy) (hv : s.contents g = some v) :
    ∃ s', s.read g = .ok (v, s') ∧ s'.Tidy ∧ ∀ h, s'.contents h = s.contents h := by
  unfold Spilling.read
  cases hi : s.find? g with
  | some i =>
    obtain ⟨r, hr, rfl⟩ := seats_of_find? hi
    cases (t.contents_eq hr).symm.trans hv
    simp only [Option.bind_some, hr, Option.map_some]
    exact ⟨_, rfl, t.reseat hr rfl rfl⟩
  | none =>
    have hslot : s.spill.get g = some v := by rw [← contents_of_not_seated (find?_eq_none.1 hi), hv]
    simp only [Option.bind_none, hslot]
    obtain ⟨t₁, hslot₁, hcontents₁⟩ :=
      @Tidy.clearSlot s { s with spill := s.spill.put g none, reloads := s.reloads + 1 } g t rfl rfl
    obtain ⟨ht, hcontents⟩ := t₁.place hslot₁ v
    refine ⟨_, rfl, ht, fun h => ?_⟩
    rw [hcontents]
    split
    · subst h; exact hv.symm
    · rename_i hh; exact hcontents₁ h hh

/-- A read that is answered gives what is held. -/
theorem Tidy.of_read (t : s.Tidy) (hs : s.read g = .ok (v, s')) :
    s.contents g = some v ∧ s'.Tidy ∧ ∀ h, s'.contents h = s.contents h := by
  cases hv : s.contents g with
  | none =>
    obtain ⟨hseats, hslot⟩ := contents_eq_none hv
    simp only [Spilling.read, find?_eq_none.2 hseats, Option.bind_none, hslot, reduceCtorEq] at hs
  | some v' =>
    obtain ⟨s'', hread, ht, hcontents⟩ := t.read hv
    cases hread.symm.trans hs
    exact ⟨rfl, ht, hcontents⟩

/-- After a write the value is held, and nothing else has changed. -/
theorem Tidy.write (t : s.Tidy) (g : Group) (v : UInt64) :
    (s.write g v).Tidy ∧ ∀ h, (s.write g v).contents h = if g = h then some v else s.contents h := by
  obtain ⟨t₁, hslot₁, hcontents₁⟩ := @Tidy.clearSlot s { s with spill := s.spill.put g none } g t rfl rfl
  obtain ⟨ht, hcontents⟩ := t₁.place hslot₁ v
  refine ⟨ht, fun h => ?_⟩
  rw [Spilling.write, hcontents]
  split
  · rfl
  · rename_i hh; exact hcontents₁ h hh

/-- Evicting a group changes nothing of what is held. -/
theorem Tidy.evict (t : s.Tidy) (g : Group) : (s.evict g).Tidy ∧ ∀ h, (s.evict g).contents h = s.contents h := by
  unfold Spilling.evict
  cases s.find? g with
  | none => exact ⟨t, fun _ => rfl⟩
  | some i => exact ⟨(t.evictPhys i).1, (t.evictPhys i).2.1⟩

/-- **Evicting a group vacates its register and puts its value into its spill slot.** The other registers and slots are
left alone. -/
theorem Tidy.evict_vacates (t : s.Tidy) (g : Group) :
    (∀ i, ¬ (s.evict g).Seats i g) ∧ (s.evict g).spill.get g = s.contents g ∧
    (∀ i, ¬ s.Seats i g → (s.evict g).phys.get i = s.phys.get i) ∧
    ∀ h, h ≠ g → (s.evict g).spill.get h = s.spill.get h := by
  unfold Spilling.evict
  cases hi : s.find? g with
  | none =>
    have hseats := find?_eq_none.1 hi
    exact ⟨hseats, (contents_of_not_seated hseats).symm, fun _ _ => rfl, fun _ _ => rfl⟩
  | some i =>
    obtain ⟨r, hr, rfl⟩ := seats_of_find? hi
    simp only [evictPhys_of_some hr]
    refine ⟨?_, ?_, fun j hj => Cells.get_put_of_ne _ ?_ _, fun h hh => Cells.get_put_of_ne _ (Ne.symm hh) _⟩
    · rintro j ⟨r', hr', hgroup⟩
      rw [Cells.get_put] at hr'
      split at hr'
      · cases hr'
      · rename_i hne
        exact hne (t.once ⟨r, hr, rfl⟩ ⟨r', hr', hgroup⟩)
    · rw [Cells.get_put_self, t.contents_eq hr]
    · rintro rfl
      exact hj ⟨r, hr, rfl⟩

/-- After a discard nothing is held for the group. -/
theorem Tidy.discard (t : s.Tidy) (g : Group) :
    (s.discard g).Tidy ∧ ∀ h, (s.discard g).contents h = if g = h then none else s.contents h := by
  unfold Spilling.discard
  cases hi : s.find? g with
  | none =>
    obtain ⟨ht, hslot, hcontents⟩ := @Tidy.clearSlot s { s with spill := s.spill.put g none } g t rfl rfl
    refine ⟨ht, fun h => ?_⟩
    by_cases hh : g = h
    · subst hh
      rw [if_pos rfl, contents_of_not_seated]
      · exact hslot
      · exact find?_eq_none.1 hi
    · rw [if_neg hh]
      exact hcontents h hh
  | some i =>
    obtain ⟨r, hr, rfl⟩ := seats_of_find? hi
    exact t.unseat hr rfl rfl

end Spilling

end ChillHints
