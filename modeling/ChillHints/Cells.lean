/-!
# Cells

A fixed number of cells, numbered from 0, each with a value. The states of the analyses are cells, one for each
alias group or one for each block, and so are the registers of the machines. What an operation does is said by what
`get` gives afterwards: `get_put`, `get_tabulate`, `get_all`.
-/

namespace ChillHints

/-- `n` cells with values in `α`. -/
abbrev Cells (n : Nat) (α : Type) := Vector α n

namespace Cells

variable {n : Nat} {α : Type}

/-- The same value in every cell. -/
def all (x : α) : Cells n α := Vector.replicate n x

/-- In each cell, the value that `f` gives. -/
def tabulate (f : Fin n → α) : Cells n α := Vector.ofFn f

/-- Changes the value in cell `i`. -/
def put (c : Cells n α) (i : Fin n) (x : α) : Cells n α := c.set i.val x i.isLt

@[simp] theorem get_all (x : α) (i : Fin n) : (all x : Cells n α).get i = x := Vector.getElem_replicate i.isLt

@[simp] theorem get_tabulate (f : Fin n → α) (i : Fin n) : (tabulate f).get i = f i := Vector.getElem_ofFn i.isLt

theorem get_put (c : Cells n α) (i j : Fin n) (x : α) : (c.put i x).get j = if i = j then x else c.get j := by
  simp only [Fin.ext_iff]
  exact Vector.getElem_set i.isLt j.isLt

@[simp] theorem get_put_self (c : Cells n α) (i : Fin n) (x : α) : (c.put i x).get i = x := by simp [get_put]

theorem get_put_of_ne (c : Cells n α) {i j : Fin n} (h : i ≠ j) (x : α) : (c.put i x).get j = c.get j := by
  simp [get_put, h]

/-- Cells with the same values are the same. -/
theorem ext_get {c d : Cells n α} (h : ∀ i, c.get i = d.get i) : c = d := by
  apply Vector.ext
  intro i hi
  exact h ⟨i, hi⟩

end Cells

end ChillHints
