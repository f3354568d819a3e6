import ChillHints.Proofs.Flow
import ChillHints.Validity.Defs

/-!
# What has been written on a path

The last write or drop of a group on a path decides how many of its low bits are written at the end of the path:
as many as the write has, or none at all after a drop (`written`). The state that the analysis computes along a
sequence of instructions is just that, for every group (`get_foldl_after`).

`u.Brings g b k w` says that some path to instruction `k` of block `b` brings `w`. A block that cannot be reached has
one path only, which begins at the block itself with nothing written.
-/

namespace ChillHints

/-! ## The last write or drop -/

/-- The operand ends the value of `g`. -/
def Operand.ends (g : Group) (op : Operand) : Bool := op.role != .read && op.reg.group? == some g

/-- The writes and drops of `g`, first to last. -/
def endings (g : Group) (h : List Inst) : List Operand := (h.flatMap Inst.operands).filter (·.ends g)

/-- How many bits are written by an operand that ends a value. -/
def Operand.brings (e : Edition) (op : Operand) : Option Nat :=
  if op.role = .write then some (e.bits op.reg.width) else none

/-- How many low bits of `g` are written after the instructions `h`, where `start` are written before. -/
def written (e : Edition) (g : Group) (start : Option Nat) (h : List Inst) : Option Nat :=
  ((endings g h).getLast?.map (·.brings e)).getD start

theorem written_nil (e : Edition) (g : Group) (start : Option Nat) : written e g start [] = start := rfl

/-- A path in two parts. -/
theorem written_append (e : Edition) (g : Group) (start : Option Nat) (h h' : List Inst) :
    written e g start (h ++ h') = written e g (written e g start h) h' := by
  simp only [written, endings, List.flatMap_append, List.filter_append, List.getLast?_append]
  cases ((h'.flatMap Inst.operands).filter (·.ends g)).getLast? <;> rfl

/-! ## Along a sequence of instructions -/

namespace Defs

variable {e : Edition} {g : Group}

/-- The state after one operand. -/
theorem get_access {op : Operand} {h : Group} (hg : op.reg.group? = some h) (d : Defs) :
    (d.access ⟨op.role, op.reg, h, e.bits op.reg.width⟩).get g = if op.ends g then op.brings e else d.get g := by
  obtain ⟨role, reg⟩ := op
  simp only at hg
  cases role <;> simp [access, Operand.ends, Operand.brings, hg, Cells.get_put]

theorem get_foldl_accesses (ops : List Operand) (d : Defs) :
    ((ops.filterMap fun op => op.reg.group?.map fun h => Access.mk op.role op.reg h (e.bits op.reg.width)).foldl
      access d).get g = (((ops.filter (·.ends g)).getLast?.map (·.brings e)).getD (d.get g)) := by
  induction ops generalizing d with
  | nil => rfl
  | cons op ops ih =>
    cases hg : op.reg.group? with
    | none =>
      have hends : op.ends g = false := by simp [Operand.ends, hg]
      simp only [List.filterMap_cons, hg, Option.map_none, ih, List.filter_cons, hends, Bool.false_eq_true,
        if_false]
    | some h =>
      simp only [List.filterMap_cons, hg, Option.map_some, List.foldl_cons, ih, get_access hg, List.filter_cons]
      split
      · rw [List.getLast?_cons]
        cases (ops.filter (·.ends g)).getLast? <;> rfl
      · rfl

/-- **The computed state is what the last write or drop leaves.** -/
theorem get_foldl_after (h : List Inst) (d : Defs) :
    ((h.map (Inst.accesses e)).foldl after d).get g = written e g (d.get g) h := by
  induction h generalizing d with
  | nil => rfl
  | cons i h ih =>
    have hi : (d.after (i.accesses e)).get g = written e g (d.get g) [i] := by
      simp only [written, endings, List.flatMap_cons, List.flatMap_nil, List.append_nil]
      exact get_foldl_accesses i.operands d
    rw [List.map_cons, List.foldl_cons, ih, hi, ← written_append]
    rfl

/-! ## Ranks -/

/-- The position in the order in which nothing written comes first. -/
def rank : Option Nat → Nat
  | none => 0
  | some w => w + 1

theorem rank_inj {a b : Option Nat} (h : rank a = rank b) : a = b := by
  cases a <;> cases b <;> simp_all [rank]

theorem rank_narrower (a b : Option Nat) : rank (narrower a b) = min (rank a) (rank b) := by
  cases a <;> cases b <;> simp [narrower, rank]

theorem narrower_eq_or (a b : Option Nat) : narrower a b = a ∨ narrower a b = b := by
  have h := rank_narrower a b
  rcases Nat.le_total (rank a) (rank b) with hab | hab
  · exact Or.inl (rank_inj (by omega))
  · exact Or.inr (rank_inj (by omega))

/-- No group is written wider in `d` than in `d'`. -/
abbrev Le : Defs → Defs → Prop := Below fun a b => rank a ≤ rank b

theorem get_meet (d d' : Defs) (g : Group) : (d.meet d').get g = narrower (d.get g) (d'.get g) :=
  Cells.get_tabulate _ g

/-- More written at the start of a path is not less at its end. -/
theorem rank_written_mono {s s' : Option Nat} (h : rank s ≤ rank s') (is : List Inst) :
    rank (written e g s is) ≤ rank (written e g s' is) := by
  unfold written
  cases (endings g is).getLast? with
  | none => exact h
  | some op => exact Nat.le_refl _

end Defs

/-- No view is wider than 64 bits. -/
theorem bits_le (e : Edition) (w : Width) : e.bits w ≤ 64 := by
  cases e; cases w <;> decide

/-- No path writes more than 64 bits. -/
theorem rank_written_le {e : Edition} {g : Group} {start : Option Nat} (hs : Defs.rank start ≤ 65) (h : List Inst) :
    Defs.rank (written e g start h) ≤ 65 := by
  unfold written
  cases (endings g h).getLast? with
  | none => exact hs
  | some op =>
    have := bits_le e op.reg.width
    simp only [Option.map_some, Option.getD_some, Operand.brings]
    split <;> simp only [Defs.rank] <;> omega

/-! ## Paths -/

namespace CompiledUnit

variable {u : CompiledUnit} {g : Group} {b k : Nat} {w : Option Nat}

/-- How many bits of `g` are written on entry to the unit. -/
def onEntry (u : CompiledUnit) (g : Group) : Option Nat := if g = Group.sp then some u.edition.ptrBits else none

/-- Some path to instruction `k` of block `b` leaves `g` with `w` written. -/
inductive Brings (u : CompiledUnit) (g : Group) (b k : Nat) : Option Nat → Prop
  | path {h : List Inst} : u.Arrives b h →
      Brings u g b k (written u.edition g (u.onEntry g) (h ++ (u.blockAt b).take k))
  | alone : (∀ h, ¬ u.Arrives b h) → Brings u g b k (written u.edition g none ((u.blockAt b).take k))

theorem Brings.rank_le (h : u.Brings g b k w) : Defs.rank w ≤ 65 := by
  cases h with
  | path _ =>
    apply rank_written_le
    unfold onEntry
    split
    · cases u.edition; decide
    · decide
  | alone _ => exact rank_written_le (by decide) _

theorem get_atEntry (u : CompiledUnit) (g : Group) : Defs.atEntry.get g = u.onEntry g := by
  rw [Defs.atEntry, Cells.get_put, onEntry, Defs.nothing, Cells.get_all]
  cases u.edition
  by_cases h : g = Group.sp
  · simp [h]
  · rw [if_neg (Ne.symm h), if_neg h]

end CompiledUnit

end ChillHints
