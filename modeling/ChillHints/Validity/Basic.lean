import ChillHints.Validity.Defs
import ChillHints.Validity.Structure

/-!
# Validity

A valid unit has no flawed instruction, and every read is of something that was written, at least as wide as the
read, on every path from the entry. The flaws of single instructions come first.
-/

namespace ChillHints

namespace CompiledUnit

/-- Refuses a unit that reads what is not written. -/
def checkDefs (u : CompiledUnit) : Except Failure Unit :=
  match u.flow with
  | .error f => .error (.fault f)
  | .ok f =>
    match f.readFlaw? with
    | some r => .error (.rejected r)
    | none => .ok ()

/-- Refuses a unit that is not valid. -/
def validate (u : CompiledUnit) : Except Failure Unit :=
  match u.structureFlaw? with
  | some r => .error (.rejected r)
  | none => u.checkDefs

end CompiledUnit

end ChillHints
