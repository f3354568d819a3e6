import ChillHints.Code.Inst
import ChillHints.Machine.Store

/-!
# Executing one instruction

The machine has a register store, a stack pointer, a memory of 64-bit words, and a list of the events that can be
seen from outside. A read through a view gives the low bits of the stored value and a write stores the low bits of
the value. The stack pointer is kept outside the store, and only `sp_add` changes it.
-/

namespace ChillHints

/-- Something a unit does that can be seen from outside. -/
inductive Event where
  | blackbox (value : UInt64)
  | call (target : UInt32) (args : List UInt64)
  | store (addr value : UInt64)
  | ret (value : Option UInt64)
deriving DecidableEq, Repr

/-- The low `bits` bits of a value. -/
def lowBits (bits : Nat) (v : UInt64) : UInt64 :=
  if 64 ≤ bits then v else v &&& ((1 <<< UInt64.ofNat bits) - 1)

/-- The words that have been stored, the latest first. -/
abbrev Memory := List (UInt64 × UInt64)

/-- The word at an address. Where nothing has been stored, it is a fixed scramble of the address. -/
def Memory.load (m : Memory) (addr : UInt64) : UInt64 := (m.lookup addr).getD (addr * 0x9e3779b97f4a7c15)

def BinOp.eval : BinOp → UInt64 → UInt64 → UInt64
  | add, l, r => l + r
  | sub, l, r => l - r
  | mul, l, r => l * r
  | and, l, r => l &&& r
  | or, l, r => l ||| r
  | xor, l, r => l ^^^ r
  | shl, l, r => l <<< (r &&& 63)
  | lshr, l, r => l >>> (r &&& 63)

/-- The bits moved up by seven places, those that fall out coming in below. -/
def rotate7 (v : UInt64) : UInt64 := (v <<< 7) ||| (v >>> 57)

/-- What a call gives back: a scramble of its target and its arguments. -/
def callValue (target : UInt32) (args : List UInt64) : UInt64 :=
  args.foldl (fun acc x => rotate7 acc ^^^ (x + 0x51)) target.toUInt64

structure MachineState (σ : Type) where
  regs : σ
  sp : UInt64
  mem : Memory
  /-- First to last. -/
  events : List Event

/-- Where control goes after an instruction. -/
inductive Next where
  | fall
  | jump (target : Label)
  | stop
deriving DecidableEq, Repr

/-- Work on a machine state that may break off. -/
abbrev Exec (σ : Type) := StateT (MachineState σ) (Except Fault)

namespace Exec

variable {σ : Type} [RegisterStore σ] (e : Edition) (step : Nat)

/-- The value of a register. -/
def value : Reg → Exec σ UInt64
  | .sp => fun s => .ok (s.sp, s)
  | .gp i w => fun s => do
    let g ← (Reg.gp i w).group
    let (v, regs) ← RegisterStore.read step g s.regs
    return (lowBits (e.bits w) v, { s with regs })

/-- The values of registers, first to last. -/
def values : List Reg → Exec σ (List UInt64)
  | [] => return []
  | r :: rs => do
    let v ← value e step r
    let vs ← values rs
    return v :: vs

/-- Writes a register. -/
def assign (r : Reg) (v : UInt64) : Exec σ Unit := fun s => do
  let g ← r.group
  let bits := e.bits r.width
  return ((), { s with regs := RegisterStore.write g bits (lowBits bits v) s.regs })

/-- Gives up the value of a register. -/
def discard (r : Reg) : Exec σ Unit := fun s => do
  let g ← r.group
  return ((), { s with regs := RegisterStore.discard g s.regs })

/-- Records an event. -/
def emit (x : Event) : Exec σ Unit := modify fun s => { s with events := s.events ++ [x] }

/-- Executes an instruction. -/
def inst : Inst → Exec σ Next
  | .const dst val => do
    assign e dst val
    return .fall
  | .mov dst src => do
    let v ← value e step src
    assign e dst v
    return .fall
  | .binOp op dst lhs rhs => do
    let l ← value e step lhs
    let r ← value e step rhs
    assign e dst (op.eval l r)
    return .fall
  | .load dst addr => do
    let a ← value e step addr
    let s ← get
    assign e dst (s.mem.load a)
    return .fall
  | .store addr val => do
    let a ← value e step addr
    let v ← value e step val
    modify fun s => { s with mem := (a, v) :: s.mem }
    emit (.store a v)
    return .fall
  | .spAdd off => do
    modify fun s => { s with sp := s.sp + off.toInt64.toUInt64 }
    return .fall
  | .drop reg => do
    discard reg
    return .fall
  | .blackbox reg => do
    let v ← value e step reg
    emit (.blackbox v)
    return .fall
  | .call target args rtn => do
    let vs ← values e step args
    emit (.call target vs)
    match rtn with
    | some r => assign e r (callValue target vs)
    | none => pure ()
    return .fall
  | .br target => return .jump target
  | .condbr cond yes no => do
    let v ← value e step cond
    return .jump (if v ≠ 0 then yes else no)
  | .ret none => do
    emit (.ret none)
    return .stop
  | .ret (some val) => do
    let v ← value e step val
    emit (.ret (some v))
    return .stop

end Exec

end ChillHints
