import ChillHints.Cells
import ChillHints.Rejection

/-!
# The pool of free registers

A pool hands out general purpose registers, the lowest free number first. A number that is released, through
whichever view, can be handed out again. Releasing a register that is not handed out changes nothing.
-/

namespace ChillHints

/-- Which general purpose numbers of an edition are handed out. -/
structure RegPool (e : Edition) where
  held : Cells e.numGp Bool

namespace RegPool

variable {e : Edition}

/-- Nothing is handed out. -/
def empty : RegPool e := ⟨.all false⟩

/-- The lowest number that is not handed out. -/
def lowestFree? (p : RegPool e) : Option (Fin e.numGp) :=
  (List.finRange e.numGp).find? fun i => !p.held.get i

/-- Hands out a view of the lowest free number. -/
def alloc (p : RegPool e) (width : Width) : Except Rejection (Reg × RegPool e) :=
  match p.lowestFree? with
  | some i => .ok (.gp (UInt8.ofNat i) width, ⟨p.held.put i true⟩)
  | none => .error (.registersExhausted e e.numGp)

/-- Takes back the number of `r`. -/
def free (p : RegPool e) (r : Reg) : RegPool e :=
  match r.idx? with
  | some i => ⟨p.held.setIfInBounds i.toNat false⟩
  | none => p

/-- How many numbers are handed out. -/
def live (p : RegPool e) : Nat := (List.finRange e.numGp).countP fun i => p.held.get i

end RegPool

end ChillHints
