import ChillHints.Code.CompiledUnit
import ChillHints.Register.Pool

/-!
# Building units in program order

A builder starts with block 0 open. Instructions go to the end of the open block; `startBlock` closes it and opens
the next one. A branch may name a block that is not there yet: only validation looks at targets.
-/

namespace ChillHints

/-- A unit under construction: the closed blocks, the open one, and the registers handed out so far. -/
structure Builder where
  name : String
  edition : Edition
  closed : List (List Inst)
  current : List Inst
  pool : RegPool edition

namespace Builder

def new (name : String) (e : Edition) : Builder := ⟨name, e, [], [], .empty⟩

/-- The number of the open block. -/
def currentBlock (b : Builder) : Nat := b.closed.length

/-- The number of instructions added so far, which is the position of the next one. -/
def nextIdx (b : Builder) : Nat := b.closed.flatten.length + b.current.length

/-- Closes the open block and opens the next. -/
def startBlock (b : Builder) : Builder := { b with closed := b.closed ++ [b.current], current := [] }

/-- Adds an instruction, whose position is `b.nextIdx`. -/
def push (b : Builder) (i : Inst) : Builder := { b with current := b.current ++ [i] }

/-- Takes a register from the pool. -/
def allocReg (b : Builder) (width : Width) : Except Rejection (Reg × Builder) :=
  (b.pool.alloc width).map fun (r, pool) => (r, { b with pool })

/-- Drops `r` and gives it back to the pool. -/
def dropReg (b : Builder) (r : Reg) : Builder := { b with pool := b.pool.free r }.push (.drop r)

/-- Closes the open block and ends the unit. -/
def build (b : Builder) : CompiledUnit := ⟨b.name, b.edition, b.closed ++ [b.current], by simp⟩

end Builder

end ChillHints
