import ChillHints.Code.CompiledUnit
import ChillHints.Rejection

/-!
# Flaws of single instructions

An instruction is flawed if one of its registers is not in the edition, if it writes or drops the stack pointer
without being `sp_add`, if it is a terminator with another instruction behind it in its block, or if it branches to
a block that does not exist. `structureFlaw?` is the first flaw of a unit in program order.
-/

namespace ChillHints

/-- The flaw of one operand of the instruction at `iidx`. -/
def operandFlaw? (e : Edition) (iidx : Nat) (inst : Inst) (op : Operand) : Option Rejection :=
  match e.check op.reg with
  | .error .outOfBounds => some (.registerOutOfBounds iidx op.reg e e.numGp)
  | .error .unsupportedWidth => some (.unsupportedWidth iidx op.reg op.reg.width e)
  | .ok () =>
    match op.role, op.reg, inst with
    | .read, _, _ => none
    | _, .gp .., _ => none
    | _, .sp, .spAdd _ => none
    | _, .sp, _ => some (.stackPointerWrite iidx)

/-- The flaw of branching to `target` where there are `size` blocks. -/
def targetFlaw? (size iidx : Nat) (target : Label) : Option Rejection :=
  if size ≤ target.toNat then some (.invalidBranchTarget iidx target.toNat) else none

/-- The first flaw of the instruction at `iidx`. `isLast` tells whether it is the last one of its block. -/
def instFlaw? (e : Edition) (size iidx : Nat) (inst : Inst) (isLast : Bool) : Option Rejection :=
  match inst.operands.findSome? (operandFlaw? e iidx inst) with
  | some r => some r
  | none =>
    if inst.isTerm && !isLast then some (.misplacedTerminator iidx)
    else inst.targets.findSome? (targetFlaw? size iidx)

/-- The first flaw of the instructions of a block. -/
def blockFlaw? (e : Edition) (size : Nat) : List (Nat × Inst) → Option Rejection
  | [] => none
  | (iidx, inst) :: rest =>
    match instFlaw? e size iidx inst rest.isEmpty with
    | some r => some r
    | none => blockFlaw? e size rest

/-- The first flaw of a unit. -/
def CompiledUnit.structureFlaw? (u : CompiledUnit) : Option Rejection :=
  u.numbered.findSome? (blockFlaw? u.edition u.size)

end ChillHints
