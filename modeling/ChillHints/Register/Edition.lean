import ChillHints.Fault
import ChillHints.Register.Basic

/-!
# Editions and alias groups

An edition fixes the register file: how many general purpose registers there are, which widths they have, and how
wide a pointer is. There is one edition so far, number 0.

Two registers alias when they share storage. The classes of this relation are the alias groups, one for each general
purpose number and a last one for the stack pointer. All analyses work on groups.
-/

namespace ChillHints

/-- The editions that are supported. -/
inductive Edition where
  | e0
deriving DecidableEq, Repr

namespace Edition

def number : Edition → Nat
  | e0 => 0

def latest : Edition := e0

def ofNumber? : Nat → Option Edition
  | 0 => some e0
  | _ => none

/-- The number of general purpose registers. -/
def numGp : Edition → Nat
  | e0 => 15

def widths : Edition → List Width
  | e0 => Width.all

def ptrBits : Edition → Nat
  | e0 => 64

/-- How many bits wide a view is in this edition. -/
def bits (e : Edition) (w : Width) : Nat := w.bits e.ptrBits

def name (e : Edition) : String := Numeral.decimal e.number

end Edition

/-- Why a register is not one of an edition. -/
inductive RegFault where
  | outOfBounds
  | unsupportedWidth
deriving DecidableEq, Repr

/-- Is the register one of the edition? -/
def Edition.check (e : Edition) : Reg → Except RegFault Unit
  | .gp i w =>
    if e.numGp ≤ i.toNat then .error .outOfBounds
    else if e.widths.contains w then .ok ()
    else .error .unsupportedWidth
  | .sp => .ok ()

/-- An alias group: a general purpose number below 15, or 15 for the stack pointer. -/
abbrev Group := Fin 16

namespace Group

/-- The group of the stack pointer. -/
def sp : Group := 15

/-- All groups, in ascending order. -/
def all : List Group := List.finRange 16

/-- The groups of general purpose registers, in ascending order. -/
def allGp : List Group := all.filter (· ≠ sp)

/-- The general purpose number of a group. -/
def gpIdx? (g : Group) : Option UInt8 := if g = sp then none else some (UInt8.ofNat g)

/-- The registers that share the storage of the group, narrowest first. -/
def members (g : Group) : List Reg :=
  match g.gpIdx? with
  | some i => Width.all.map (Reg.gp i)
  | none => [.sp]

/-- The name of the group, without a width. -/
def name (g : Group) : String :=
  match g.gpIdx? with
  | some i => "r" ++ Numeral.decimal i.toNat
  | none => "sp"

/-- The group with number `n`. -/
def ofNat (n : Nat) : Except Fault Group :=
  if h : n < 16 then .ok ⟨n, h⟩ else .error (.outOfRange 16 n)

end Group

namespace Reg

/-- The group of a register that is in the edition. -/
def group? : Reg → Option Group
  | gp i _ => if h : i.toNat < 15 then some ⟨i.toNat, Nat.lt_succ_of_lt h⟩ else none
  | sp => some Group.sp

/-- The group of a register, or the fault of looking up a number that the edition does not have. -/
def group (r : Reg) : Except Fault Group :=
  match r.group? with
  | some g => .ok g
  | none => .error (.outOfRange 15 ((r.idx?.map UInt8.toNat).getD 0))

/-- Do the two registers share storage? -/
def aliases (r s : Reg) : Except Fault Bool := do
  let g ← r.group
  let h ← s.group
  return g == h

/-- The view `width` of general purpose register number `n`. -/
def view (n : Nat) (width : Width) : Except Fault Reg :=
  (indexUpTo 0xff n).map fun i => gp (UInt8.ofNat i) width

end Reg

end ChillHints
