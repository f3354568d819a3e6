import ChillHints.Text.Basic

/-!
# Decimal numerals

`digits` writes a number without leading zeros. Reading goes from left to right and stops at the first character
that is no digit or that takes the value past the largest number allowed, so the leftmost of two mistakes is the one
that is reported. One leading `+` is accepted, and leading zeros are.
-/

namespace ChillHints

/-- Why a text is not the numeral of a number in range. -/
inductive NumeralFault where
  | empty
  | invalidDigit
  | tooLarge
  | tooSmall
deriving DecidableEq, Repr

namespace NumeralFault

def message : NumeralFault → String
  | empty => "cannot parse integer from empty string"
  | invalidDigit => "invalid digit found in string"
  | tooLarge => "number too large to fit in target type"
  | tooSmall => "number too small to fit in target type"

/-- The one-word form of the fault. -/
def kind : NumeralFault → String
  | empty => "Empty"
  | invalidDigit => "InvalidDigit"
  | tooLarge => "PosOverflow"
  | tooSmall => "NegOverflow"

end NumeralFault

namespace Numeral

/-- The decimal digits of `n`. -/
def digits (n : Nat) : Text := Nat.toDigits 10 n

/-- The decimal text of an integer. -/
def signed (i : Int) : Text :=
  match i with
  | .ofNat n => digits n
  | .negSucc n => '-' :: digits (n + 1)

/-- The digits of `n` as a string. -/
def decimal (n : Nat) : String := String.ofList (digits n)

/-- The lower-case hexadecimal digits of `n` after `0x`. -/
def hexadecimal (n : Nat) : String := String.ofList ('0' :: 'x' :: Nat.toDigits 16 n)

/-- Continues the value `acc` with the digits of `s`, up to `max`. -/
def readDigits (max : Nat) : Nat → Text → Except NumeralFault Nat
  | acc, [] => .ok acc
  | acc, c :: s =>
    if c.isDigit then
      let value := acc * 10 + (c.toNat - '0'.toNat)
      if value ≤ max then readDigits max value s else .error .tooLarge
    else .error .invalidDigit

/-- Reads a number that is at most `max`. -/
def readNat (max : Nat) : Text → Except NumeralFault Nat
  | [] => .error .empty
  | ['+'] => .error .invalidDigit
  | '+' :: s => readDigits max 0 s
  | s => readDigits max 0 s

/-- Reads an integer from `-bound` up to `bound - 1`. -/
def readInt (bound : Nat) : Text → Except NumeralFault Int
  | ['-'] => .error .invalidDigit
  | '-' :: s =>
    match readDigits bound 0 s with
    | .ok n => .ok (-(n : Int))
    | .error .tooLarge => .error .tooSmall
    | .error e => .error e
  | s => (readNat (bound - 1) s).map Int.ofNat

def readUInt8 (s : Text) : Except NumeralFault UInt8 := (readNat 0xff s).map UInt8.ofNat

def readUInt32 (s : Text) : Except NumeralFault UInt32 := (readNat 0xffffffff s).map UInt32.ofNat

def readUInt64 (s : Text) : Except NumeralFault UInt64 := (readNat 0xffffffffffffffff s).map UInt64.ofNat

def readInt32 (s : Text) : Except NumeralFault Int32 := (readInt 0x80000000 s).map Int32.ofInt

end Numeral

end ChillHints
