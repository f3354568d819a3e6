import ChillHints.Cells
import ChillHints.Register.Edition

/-!
# Register stores

A machine keeps the values of general purpose registers in a store, by alias group. A store decides where values are
and how long they stay, and may refuse a read. `Direct` is the plainest one: a place for every group.
-/

namespace ChillHints

/-- Storage for the values of groups. -/
class RegisterStore (σ : Type) where
  /-- The value of a group, read at a step of the run. -/
  read : (step : Nat) → Group → σ → Except Fault (UInt64 × σ)
  /-- Stores a value, of which the low `bits` bits are defined. -/
  write : Group → (bits : Nat) → UInt64 → σ → σ
  /-- Gives up the value of a group. -/
  discard : Group → σ → σ
  /-- What the store does after the instruction at `iidx` has been executed. -/
  afterInst : (step iidx : Nat) → σ → Except Fault σ

/-- A place for every group. -/
structure Direct where
  values : Cells 16 (Option UInt64)
deriving DecidableEq

namespace Direct

/-- No group has a value. -/
def empty : Direct := ⟨.all none⟩

instance : RegisterStore Direct where
  read _ g s :=
    match s.values.get g with
    | some v => .ok (v, s)
    | none => .error .absentValue
  write g _ v s := ⟨s.values.put g (some v)⟩
  discard g s := ⟨s.values.put g none⟩
  afterInst _ _ s := .ok s

end Direct

end ChillHints
