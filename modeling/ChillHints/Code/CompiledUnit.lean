import ChillHints.Code.Inst
import ChillHints.Register.Edition

/-!
# Compiled units

A unit is the code of one function: blocks of instructions, at least one block, the first being the entry. A block
may be empty. An instruction is known by its position in the whole unit, counted through all blocks in order; hints
are keyed by it.
-/

namespace ChillHints

/-- A named sequence of blocks. -/
structure CompiledUnit where
  name : String
  edition : Edition
  blocks : List (List Inst)
  blocks_ne_nil : blocks ≠ []
deriving DecidableEq

/-- Numbers the elements of all lists in order, the first being `n`. -/
def numberFrom {α : Type} : Nat → List (List α) → List (List (Nat × α))
  | _, [] => []
  | n, b :: bs => (b.zipIdx n).map (fun (x, i) => (i, x)) :: numberFrom (n + b.length) bs

/-- The positions `start`, `start + 1`, …, `stop - 1` of the instructions of a block. -/
structure BlockRange where
  start : Nat
  stop : Nat
deriving DecidableEq, Repr

namespace BlockRange

def length (r : BlockRange) : Nat := r.stop - r.start

def isEmpty (r : BlockRange) : Bool := r.start == r.stop

end BlockRange

namespace CompiledUnit

/-- The number of blocks. -/
def size (u : CompiledUnit) : Nat := u.blocks.length

/-- The instructions in program order. -/
def insts (u : CompiledUnit) : List Inst := u.blocks.flatten

/-- The blocks, with the position of every instruction. -/
def numbered (u : CompiledUnit) : List (List (Nat × Inst)) := numberFrom 0 u.blocks

/-- The position of the first instruction of block `b`, or where one would be. -/
def start (u : CompiledUnit) (b : Nat) : Nat := (u.blocks.take b).flatten.length

/-- Where each block begins and ends. -/
def ranges (u : CompiledUnit) : List BlockRange :=
  u.blocks.zipIdx.map fun (insts, b) => ⟨u.start b, u.start b + insts.length⟩

/-- The instructions of block `b` with their positions. -/
def blockInsts (u : CompiledUnit) (b : Nat) : List (Nat × Inst) := u.numbered.getD b []

end CompiledUnit

end ChillHints
