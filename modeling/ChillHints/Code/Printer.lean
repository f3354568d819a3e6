import ChillHints.Code.CompiledUnit

/-!
# Writing units

A unit is written as a header line, then each block as its label line followed by its instructions, each with its
position:

    unit fib edition 0
    bb0:
      %0: r0.64 = const 10
      %1: condbr r0.8, bb1, bb0
    bb1:
      %2: ret r0.64
-/

namespace ChillHints

/-- The label of block `n`. -/
def labelText (n : Nat) : Text := 'b' :: 'b' :: Numeral.digits n

namespace Inst

def text : Inst → Text
  | const dst val => dst.text ++ " = const ".toList ++ Numeral.digits val.toNat
  | mov dst src => dst.text ++ " = mov ".toList ++ src.text
  | binOp op dst lhs rhs => dst.text ++ " = ".toList ++ op.text ++ ' ' :: lhs.text ++ ", ".toList ++ rhs.text
  | load dst addr => dst.text ++ " = load ".toList ++ addr.text
  | store addr val => "store ".toList ++ addr.text ++ ", ".toList ++ val.text
  | spAdd off => "sp_add ".toList ++ Numeral.signed off.toInt
  | drop reg => "drop ".toList ++ reg.text
  | blackbox reg => "blackbox ".toList ++ reg.text
  | call target args rtn =>
    (match rtn with
      | some r => r.text ++ " = ".toList
      | none => [])
    ++ "call @".toList ++ Numeral.digits target.toNat ++ '(' :: Text.join ", ".toList (args.map Reg.text) ++ [')']
  | br target => "br ".toList ++ labelText target.toNat
  | condbr cond yes no =>
    "condbr ".toList ++ cond.text ++ ", ".toList ++ labelText yes.toNat ++ ", ".toList ++ labelText no.toNat
  | ret (some val) => "ret ".toList ++ val.text
  | ret none => "ret".toList

end Inst

/-- The line of the instruction at a position. -/
def instLine : Nat × Inst → Text
  | (iidx, inst) => "  %".toList ++ Numeral.digits iidx ++ ": ".toList ++ inst.text

/-- The lines of block `b`. -/
def blockLines (b : Nat) (insts : List (Nat × Inst)) : List Text :=
  (labelText b ++ [':']) :: insts.map instLine

namespace CompiledUnit

def headerLine (u : CompiledUnit) : Text :=
  "unit ".toList ++ u.name.toList ++ " edition ".toList ++ Numeral.digits u.edition.number

/-- The lines of the unit. -/
def textLines (u : CompiledUnit) : List Text :=
  u.headerLine :: (u.numbered.zipIdx.map fun (insts, b) => blockLines b insts).flatten

/-- The written form of the unit: its lines, each ended by a line feed. -/
def text (u : CompiledUnit) : Text := (u.textLines.map (· ++ ['\n'])).flatten

def render (u : CompiledUnit) : String := String.ofList u.text

end CompiledUnit

end ChillHints
