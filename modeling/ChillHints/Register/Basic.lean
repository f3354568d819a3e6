import ChillHints.Text.Numeral

/-!
# Virtual registers

There are general purpose registers, numbered, and one stack pointer, which has no number. A general purpose
register is used through a view of some width: `r3.8`, `r3.32`, `r3.ptr`. All views of one number share their
storage. A write through a view narrower than the storage leaves the upper bits undefined.
-/

namespace ChillHints

/-- The width of a view. The width of a pointer depends on the edition. -/
inductive Width where
  | w8
  | w16
  | w32
  | w64
  | ptr
deriving DecidableEq, Repr

namespace Width

/-- All widths, in ascending order. -/
def all : List Width := [w8, w16, w32, w64, ptr]

/-- How many bits wide, where pointers have `ptrBits`. -/
def bits (ptrBits : Nat) : Width → Nat
  | w8 => 8
  | w16 => 16
  | w32 => 32
  | w64 => 64
  | ptr => ptrBits

/-- The position in `all`. -/
def code : Width → Nat
  | w8 => 0
  | w16 => 1
  | w32 => 2
  | w64 => 3
  | ptr => 4

def ofCode? (n : Nat) : Option Width := all[n]?

/-- What stands after the dot in the name of a view. -/
def suffix : Width → Text
  | w8 => ['8']
  | w16 => ['1', '6']
  | w32 => ['3', '2']
  | w64 => ['6', '4']
  | ptr => ['p', 't', 'r']

def ofSuffix? (s : Text) : Option Width := all.find? fun w => w.suffix == s

def name (w : Width) : String := String.ofList w.suffix

end Width

/-- The two classes of registers. -/
inductive RegClass where
  | gp
  | sp
deriving DecidableEq, Repr

namespace RegClass

/-- The byte that stands for the class in a container. -/
def code : RegClass → UInt8
  | gp => 0
  | sp => 1

def ofCode? (n : UInt8) : Option RegClass :=
  if n = 0 then some gp else if n = 1 then some sp else none

def name : RegClass → String
  | gp => "gp"
  | sp => "sp"

end RegClass

/-- A view of a general purpose register, or the stack pointer. -/
inductive Reg where
  | gp (idx : UInt8) (width : Width)
  | sp
deriving DecidableEq, Repr

namespace Reg

def regClass : Reg → RegClass
  | gp .. => .gp
  | sp => .sp

/-- The stack pointer is as wide as a pointer. -/
def width : Reg → Width
  | gp _ w => w
  | sp => .ptr

def idx? : Reg → Option UInt8
  | gp i _ => some i
  | sp => none

/-- The name under which the register is written. -/
def text : Reg → Text
  | gp i w => 'r' :: (Numeral.digits i.toNat ++ '.' :: w.suffix)
  | sp => ['s', 'p']

def name (r : Reg) : String := String.ofList r.text

/-- The register of a name. The number may have leading zeros and a leading `+`. -/
def ofText? : Text → Option Reg
  | ['s', 'p'] => some sp
  | 'r' :: rest => do
    let (number, suffix) ← Text.splitOnce ['.'] rest
    let i ← (Numeral.readUInt8 number).toOption
    let w ← Width.ofSuffix? suffix
    return gp i w
  | _ => none

end Reg

end ChillHints
