import ChillHints.Code.CompiledUnit
import ChillHints.Flow.Graph

/-!
# The flow of a unit

Control goes from one block to another by the last instruction of the block: `br` to its target, `condbr` to either
of two, `ret` out of the unit, and anything else to the block that follows, if there is one.

The analyses work on a `Flow`, in which every operand has its alias group and every branch target is a block. A unit
with a register or a target that does not exist has none: `flow` gives the fault of looking it up.
-/

namespace ChillHints

/-- The successors that a terminator names; `none` for an instruction that is no terminator. -/
def Inst.exits? : Inst → Option (List Nat)
  | .br target => some [target.toNat]
  | .condbr _ yes no => some (if yes = no then [yes.toNat] else [yes.toNat, no.toNat])
  | .ret _ => some []
  | _ => none

namespace CompiledUnit

/-- The numbers of the blocks that control goes to after block `b`. They need not exist. -/
def successors (u : CompiledUnit) (b : Nat) : List Nat :=
  match (u.blocks.getD b []).getLast?.bind Inst.exits? with
  | some targets => targets
  | none => if b + 1 < u.size then [b + 1] else []

/-- The entry block. -/
def entry (u : CompiledUnit) : Fin u.size := ⟨0, List.length_pos_iff.mpr u.blocks_ne_nil⟩

/-- The first successor of block `b` that does not exist. -/
def stray? (u : CompiledUnit) (b : Nat) : Option Nat := (u.successors b).find? fun t => u.size ≤ t

/-- The successors of every block that exist. -/
def graph (u : CompiledUnit) : Graph u.size :=
  ⟨Cells.tabulate fun b => (u.successors b).filterMap fun t => if h : t < u.size then some ⟨t, h⟩ else none⟩

/-- The first target that does not exist, block by block. -/
def firstStray? (u : CompiledUnit) : Option Nat := (List.finRange u.size).findSome? fun b => u.stray? b.val

/-- The predecessors of every block. All targets must exist. -/
def predecessors (u : CompiledUnit) : Except Fault (Cells u.size (List (Fin u.size))) :=
  match u.firstStray? with
  | some t => .error (.outOfRange u.size t)
  | none => .ok (Cells.tabulate u.graph.preds)

/-- The blocks that can be reached from the entry, in the order in which a search finds them. -/
def searchOrder (u : CompiledUnit) : List (Fin u.size) := u.graph.reachedFrom u.entry

/-- Which blocks can be reached from the entry? The targets in these blocks must exist; of those that do not, the first
in the order of the search is the fault. -/
def reachable (u : CompiledUnit) : Except Fault (Cells u.size Bool) :=
  let order := u.searchOrder
  match order.findSome? fun b => u.stray? b.val with
  | some t => .error (.outOfRange u.size t)
  | none => .ok (Cells.tabulate fun b => order.contains b)

end CompiledUnit

/-- What an instruction does to an alias group, through a view of `bits` bits. -/
structure Access where
  role : Role
  reg : Reg
  group : Group
  bits : Nat
deriving DecidableEq, Repr

/-- The accesses of an instruction to the registers that are in the edition. -/
def Inst.accesses (e : Edition) (i : Inst) : List Access :=
  i.operands.filterMap fun op => op.reg.group?.map fun g => ⟨op.role, op.reg, g, e.bits op.reg.width⟩

/-- The code of a unit as the analyses see it. -/
structure Flow (n : Nat) where
  /-- The accesses of each instruction of each block. -/
  code : Cells n (List (List Access))
  graph : Graph n
  /-- Which blocks can be reached from block 0? -/
  reached : Cells n Bool

/-- The predecessors of `b` from which control can really come. -/
def Flow.livePreds {n : Nat} (f : Flow n) (b : Fin n) : List (Fin n) :=
  (f.graph.preds b).filter fun p => f.reached.get p

namespace CompiledUnit

/-- The fault of the first register, in program order, that is not in the edition. -/
def firstForeign? (u : CompiledUnit) : Option Fault :=
  (u.insts.flatMap Inst.operands).findSome? fun op =>
    match op.reg.group with
    | .error f => some f
    | .ok _ => none

/-- The flow of a unit whose targets and registers all exist. -/
def flow (u : CompiledUnit) : Except Fault (Flow u.size) := do
  let reached ← u.reachable
  let _ ← u.predecessors
  match u.firstForeign? with
  | some f => .error f
  | none =>
    let code := Cells.tabulate fun b => (u.blocks.getD b.val []).map (Inst.accesses u.edition)
    return ⟨code, u.graph, reached⟩

end CompiledUnit

end ChillHints
