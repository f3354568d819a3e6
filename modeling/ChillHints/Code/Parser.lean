import ChillHints.Code.Builder

/-!
# Reading units

Reading goes line by line, without the blanks around a line and without empty lines. The header is optional: a unit
without one is called `test` and is in edition 0. Labels must come in order from `bb0`. The `%n:` before an
instruction is optional too, and its number is not looked at. Commas and parentheses between operands count as
blanks.
-/

namespace ChillHints

namespace Parser

/-- A block label. Numbers that cannot be a label are faults of their own. -/
def readLabel (line s : Text) : Except Fault Label :=
  let invalid := .error (.unreadable (.block (String.ofList s) (String.ofList line)))
  match s with
  | 'b' :: 'b' :: rest =>
    match Numeral.readNat 0xffffffffffffffff rest with
    | .ok n => (indexUpTo 0xffffffff n).map UInt32.ofNat
    | .error _ => invalid
  | _ => invalid

def readReg (line s : Text) : Except Fault Reg :=
  match Reg.ofText? s with
  | some r => .ok r
  | none => .error (.unreadable (.register (String.ofList s) (String.ofList line)))

def readRegs (line : Text) (ss : List Text) : Except Fault (List Reg) := ss.mapM (readReg line)

def malformed (line : Text) : Except Fault Inst := .error (.unreadable (.instruction (String.ofList line)))

/-- `call @target args`, where `rtn` receives the result. -/
def readCall (line : Text) (rtn : Option Reg) (target : Text) (args : List Text) : Except Fault Inst :=
  let invalid := .error (.unreadable (.callTarget (String.ofList line)))
  match target with
  | '@' :: number =>
    match Numeral.readUInt32 number with
    | .ok n => do return .call n (← readRegs line args) rtn
    | .error _ => invalid
  | _ => invalid

/-- What stands after `dst = `. -/
def readAssign (line : Text) (dst : Reg) (op : String) (args : List Text) : Except Fault Inst :=
  match op, args with
  | "const", [val] =>
    match Numeral.readUInt64 val with
    | .ok n => .ok (.const dst n)
    | .error _ => .error (.unreadable (.constant (String.ofList line)))
  | "mov", [src] => do return .mov dst (← readReg line src)
  | "load", [addr] => do return .load dst (← readReg line addr)
  | "call", target :: args => readCall line (some dst) target args
  | op, [lhs, rhs] =>
    match BinOp.ofText? op.toList with
    | some binOp => do return .binOp binOp dst (← readReg line lhs) (← readReg line rhs)
    | none => .error (.unreadable (.binOp (String.ofList line)))
  | _, _ => malformed line

/-- An instruction without a destination. -/
def readEffect (line : Text) (op : String) (args : List Text) : Except Fault Inst :=
  match op, args with
  | "call", target :: args => readCall line none target args
  | "store", [addr, val] => do return .store (← readReg line addr) (← readReg line val)
  | "sp_add", [off] =>
    match Numeral.readInt32 off with
    | .ok n => .ok (.spAdd n)
    | .error _ => .error (.unreadable (.offset (String.ofList line)))
  | "drop", [reg] => do return .drop (← readReg line reg)
  | "blackbox", [reg] => do return .blackbox (← readReg line reg)
  | "br", [target] => do return .br (← readLabel line target)
  | "condbr", [cond, yes, no] => do
    return .condbr (← readReg line cond) (← readLabel line yes) (← readLabel line no)
  | "ret", [] => .ok (.ret none)
  | "ret", [val] => do return .ret (some (← readReg line val))
  | _, _ => malformed line

/-- The line without its `%n:`. -/
def dropTag (line : Text) : Except Fault Text :=
  match line with
  | '%' :: rest =>
    match Text.splitOnce [':'] rest with
    | some (_, body) => .ok (Text.trim body)
    | none => .error (.unreadable (.instruction (String.ofList line)))
  | _ => .ok line

/-- The words of an operand list, in which commas and parentheses are blanks. -/
def operandWords (s : Text) : List Text :=
  Text.words (s.map fun c => if c == ',' || c == '(' || c == ')' then ' ' else c)

/-- The instruction on a line. -/
def readInst (line : Text) : Except Fault Inst := do
  let body ← dropTag line
  match Text.splitOnce " = ".toList body with
  | some (dst, rhs) =>
    let dst ← readReg line (Text.trim dst)
    match operandWords (Text.trim rhs) with
    | op :: args => readAssign line dst (String.ofList op) args
    | [] => malformed line
  | none =>
    match operandWords body with
    | op :: args => readEffect line (String.ofList op) args
    | [] => malformed line

/-- The header, if the first line is one: the name, the edition and the lines after it. -/
def readHeader : List Text → Except Fault (String × Edition × List Text)
  | [] => .ok ("test", .e0, [])
  | line :: lines =>
    match "unit ".toList.isPrefixOf? line with
    | none => .ok ("test", .e0, line :: lines)
    | some rest =>
      match Text.words rest with
      | [name, keyword, number] =>
        if keyword = "edition".toList then
          match Numeral.readUInt32 number with
          | .error e => .error (.unreadable (.editionNumeral e))
          | .ok n =>
            match Edition.ofNumber? n.toNat with
            | some e => .ok (String.ofList name, e, lines)
            | none => .error (.unreadable (.editionUnsupported n.toNat Edition.latest.number))
        else .error (.unreadable (.header (String.ofList line)))
      | _ => .error (.unreadable (.header (String.ofList line)))

/-- The label on a line: a line that ends with a colon is one. -/
def labelOf? (line : Text) : Option Text := [':'].isSuffixOf? line

/-- Reads the blocks after the first label. -/
def readBody (b : Builder) : List Text → Except Fault Builder
  | [] => .ok b
  | line :: lines =>
    match labelOf? line with
    | some label => do
      let found ← readLabel line label
      let b := b.startBlock
      if found.toNat = b.currentBlock then readBody b lines
      else .error (.unreadable (.blockOrder (String.ofList line) found.toNat b.currentBlock))
    | none => do
      let inst ← readInst line
      readBody (b.push inst) lines

/-- Reads the blocks, the first of which must be labelled `bb0`. -/
def readBlocks (b : Builder) : List Text → Except Fault Builder
  | [] => .ok b
  | line :: lines =>
    match labelOf? line with
    | some label => do
      let found ← readLabel line label
      if found.toNat = 0 then readBody b lines
      else .error (.unreadable (.firstBlock (String.ofList line) found.toNat))
    | none => .error (.unreadable (.instBeforeBlock (String.ofList line)))

end Parser

namespace CompiledUnit

/-- The unit that a text describes. -/
def ofText (s : Text) : Except Fault CompiledUnit := do
  let (name, edition, lines) ← Parser.readHeader (Text.lines s)
  let b ← Parser.readBlocks (Builder.new name edition) lines
  return b.build

def parse (s : String) : Except Fault CompiledUnit := ofText s.toList

end CompiledUnit

end ChillHints
