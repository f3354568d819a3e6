import ChillHints.Register.Basic

/-!
# Instructions

An instruction names the registers it works on. `operands` lists them with the role each plays, what is written
before what is read; where one register is both, the read comes first in time. `br`, `condbr` and `ret` are the
terminators: they end a block and say where control goes.
-/

namespace ChillHints

/-- The number in the label `bbN` of a block. -/
abbrev Label := UInt32

/-- The operations on two values. -/
inductive BinOp where
  | add
  | sub
  | mul
  | and
  | or
  | xor
  | shl
  | lshr
deriving DecidableEq, Repr

namespace BinOp

def all : List BinOp := [add, sub, mul, and, or, xor, shl, lshr]

def text : BinOp → Text
  | add => ['a', 'd', 'd']
  | sub => ['s', 'u', 'b']
  | mul => ['m', 'u', 'l']
  | and => ['a', 'n', 'd']
  | or => ['o', 'r']
  | xor => ['x', 'o', 'r']
  | shl => ['s', 'h', 'l']
  | lshr => ['l', 's', 'h', 'r']

def name (op : BinOp) : String := String.ofList op.text

def ofText? (s : Text) : Option BinOp := all.find? fun op => op.text == s

end BinOp

/-- What an instruction does with an operand. -/
inductive Role where
  /-- The current value is read. -/
  | read
  /-- A new value is written. -/
  | write
  /-- The current value is given up, and none is written. -/
  | drop
deriving DecidableEq, Repr

/-- A register of an instruction and its role there. -/
structure Operand where
  role : Role
  reg : Reg
deriving DecidableEq, Repr

inductive Inst where
  | const (dst : Reg) (val : UInt64)
  | mov (dst src : Reg)
  | binOp (op : BinOp) (dst lhs rhs : Reg)
  | load (dst addr : Reg)
  | store (addr val : Reg)
  /-- Moves the stack pointer by `off` bytes. Nothing else may change the stack pointer. -/
  | spAdd (off : Int32)
  /-- The value of `reg` is not needed any more. -/
  | drop (reg : Reg)
  /-- A use of `reg` about which nothing is known. -/
  | blackbox (reg : Reg)
  | call (target : UInt32) (args : List Reg) (rtn : Option Reg)
  | br (target : Label)
  /-- Goes to `yes` if `cond` is not zero. -/
  | condbr (cond : Reg) (yes no : Label)
  | ret (val : Option Reg)
deriving DecidableEq, Repr

namespace Inst

def isTerm : Inst → Bool
  | br .. => true
  | condbr .. => true
  | ret .. => true
  | _ => false

/-- The operands, in the order in which they are written. -/
def operands : Inst → List Operand
  | const dst _ => [⟨.write, dst⟩]
  | mov dst src => [⟨.write, dst⟩, ⟨.read, src⟩]
  | binOp _ dst lhs rhs => [⟨.write, dst⟩, ⟨.read, lhs⟩, ⟨.read, rhs⟩]
  | load dst addr => [⟨.write, dst⟩, ⟨.read, addr⟩]
  | store addr val => [⟨.read, addr⟩, ⟨.read, val⟩]
  | spAdd _ => [⟨.write, .sp⟩, ⟨.read, .sp⟩]
  | drop reg => [⟨.drop, reg⟩]
  | blackbox reg => [⟨.read, reg⟩]
  | call _ args rtn => (rtn.toList.map (Operand.mk .write)) ++ args.map (Operand.mk .read)
  | br _ => []
  | condbr cond _ _ => [⟨.read, cond⟩]
  | ret val => val.toList.map (Operand.mk .read)

/-- The registers that are read. -/
def reads (i : Inst) : List Reg := (i.operands.filter (·.role == .read)).map (·.reg)

/-- The registers whose value ends, because another is written or because it is dropped. -/
def kills (i : Inst) : List Reg := (i.operands.filter (·.role != .read)).map (·.reg)

/-- The labels that a branch names, in the order in which they are written. -/
def targets : Inst → List Label
  | br target => [target]
  | condbr _ yes no => [yes, no]
  | _ => []

end Inst

end ChillHints
