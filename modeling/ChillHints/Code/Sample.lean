import ChillHints.Code.CompiledUnit

/-!
# Sample units

A sample unit is made from a list of numbers, and whatever the numbers are it is valid and all its blocks can be
reached, as long as the register numbers are below six. All six registers are written at the start. A narrow write
stands in a short run that reads no more than was written and ends with a write of full width. Each block but the
last either falls through or branches on a condition to some block and otherwise to the next.
-/

namespace ChillHints

/-- One operation of a sample: what to do, with which two registers, and a number that picks the details. -/
structure SampleOp where
  kind : UInt8
  a : Nat
  c : Nat
  x : UInt8
deriving DecidableEq, Repr

/-- One block of a sample: its operations, and the numbers that pick its terminator. -/
structure SampleBlock where
  ops : List SampleOp
  term : UInt8
  target : UInt8
  cond : Nat
deriving DecidableEq, Repr

namespace Sample

/-- The number of registers that samples use. -/
def numRegs : Nat := 6

/-- The width that `n` picks. -/
def widthAt (n : Nat) : Width := Width.all.getD (n % 5) .w8

/-- The operation that `n` picks. -/
def binOpAt (n : Nat) : BinOp := BinOp.all.getD (n % 8) .add

/-- A register to read, at the width that `x` picks. -/
def readable (i x : Nat) : Except Fault Reg := Reg.view i (widthAt x)

/-- A register to write, at full width. -/
def writable (i x : Nat) : Except Fault Reg := Reg.view i (if x % 2 = 0 then .w64 else .ptr)

/-- A run of narrow instructions on register `a`: writes 8, 16 or 32 bits, works on them, then writes all bits again. -/
def narrowRun (a x : Nat) : Except Fault (List Inst) := do
  let narrow ← Reg.view a (widthAt (x % 3))
  let seen ← readable a (x / 4 % (x % 3 + 1))
  let wide ← writable a x
  return [.const narrow (UInt64.ofNat x * 0x010101010101), .binOp (binOpAt (x / 8)) narrow narrow narrow,
    .blackbox seen, .call (UInt32.ofNat x) [narrow] (some wide)]

/-- The instructions of an operation. -/
def opInsts (op : SampleOp) : Except Fault (List Inst) :=
  let x := op.x.toNat
  match op.kind.toNat with
  | 0 => do return [.const (← writable op.a x) (UInt64.ofNat x)]
  | 1 => do return [.mov (← writable op.a x) (← readable op.c (x / 8))]
  | 2 => do return [.binOp (binOpAt x) (← writable op.a x) (← readable op.a (x / 2)) (← readable op.c (x / 16))]
  | 3 => do return [.load (← writable op.a x) (← readable op.c 3)]
  | 4 => do return [.store (← readable op.a 4) (← readable op.c x)]
  | 5 => do return [.blackbox (← readable op.a x)]
  | 6 => do
    let args := [← readable op.a x, ← readable op.c (x / 4)]
    let rtn ← writable op.c x
    return [.call (UInt32.ofNat x) args (if x % 2 = 0 then some rtn else none)]
  | 7 => do
    let r ← writable op.a x
    return [.drop r, .const r (UInt64.ofNat x <<< 8)]
  | 8 => narrowRun op.a x
  | 9 => .ok [.spAdd (Int32.ofInt (Int.ofNat x - 128))]
  | _ => do return [.mov (← writable op.a 1) .sp]

/-- The terminator of block `i` of `size`, if it has one. -/
def terminator (size i : Nat) (b : SampleBlock) : Except Fault (List Inst) :=
  let target : Label := UInt32.ofNat (b.target.toNat % size)
  if i + 1 < size then
    if b.term.toNat % 2 = 1 then do return [.condbr (← readable b.cond 0) target (UInt32.ofNat (i + 1))]
    else .ok []
  else
    match b.term.toNat % 3 with
    | 0 => .ok []
    | 1 => .ok [.br target]
    | _ => do return [.ret (some (← readable b.cond b.term.toNat))]

/-- The instructions of block `i` of `size`. -/
def blockInsts (size i : Nat) (b : SampleBlock) : Except Fault (List Inst) := do
  let ops ← b.ops.mapM opInsts
  let term ← terminator size i b
  return ops.flatten ++ term

/-- Writes all registers. -/
def prologue : List Inst :=
  (List.range numRegs).map fun i => .const (.gp (UInt8.ofNat i) .w64) (UInt64.ofNat i + 1)

/-- The unit that the blocks describe. -/
def build (blocks : List SampleBlock) : Except Fault CompiledUnit := do
  let bodies ← blocks.zipIdx.mapM fun (b, i) => blockInsts blocks.length i b
  match bodies with
  | [] => return ⟨"arb", .e0, [prologue], by simp⟩
  | body :: rest => return ⟨"arb", .e0, (prologue ++ body) :: rest, by simp⟩

end Sample

end ChillHints
