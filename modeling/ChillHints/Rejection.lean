import ChillHints.Register.Edition

/-!
# Rejections: units and tables that are refused

A unit that is not well formed, a container that does not hold a table, or a request for more registers than there
are is answered by a `Rejection`. `iidx?` gives the instruction that a rejection is about.
-/

namespace ChillHints

/-- Why bytes are not the container of a table. -/
inductive ContainerFault where
  /-- The bytes end inside a field of `bits` bits. -/
  | truncated (bits : Nat)
  | badMagic (found : Nat)
  | trailing (count : Nat)
  | hintBeyondEnd (iidx numInsts : Nat)
  | hintOutOfOrder (iidx : Nat)
  | badClass (code : Nat) (iidx : Nat)
  | idxOutOfBounds (cls : RegClass) (idx iidx : Nat)
  | entriesOutOfOrder (iidx : Nat)
  | emptyHint (iidx : Nat)
deriving DecidableEq, Repr

def ContainerFault.message : ContainerFault → String
  | truncated bits =>
    let bytes := bits / 8
    s!"Not enough data, need {bits} bits (or {bytes} bytes)"
  | badMagic found =>
    let magic := Numeral.hexadecimal found
    s!"bad magic number {magic}"
  | trailing count => s!"{count} trailing bytes"
  | hintBeyondEnd iidx numInsts => s!"hint for %{iidx} but there are only {numInsts} instructions"
  | hintOutOfOrder iidx => s!"hint for %{iidx} out of order"
  | badClass code iidx => s!"invalid register class {code} at %{iidx}"
  | idxOutOfBounds cls idx iidx =>
    let name := cls.name
    s!"{name} register index {idx} out of bounds at %{iidx}"
  | entriesOutOfOrder iidx => s!"entries at %{iidx} are not in ascending order"
  | emptyHint iidx => s!"empty hint at %{iidx}"

/-- Why a table has no container. -/
inductive EncodeFault where
  | tooManyEntries (iidx : Nat)
  | tooManyInsts
  | tooManyHints
deriving DecidableEq, Repr

def EncodeFault.message : EncodeFault → String
  | tooManyEntries iidx => s!"too many entries at %{iidx}"
  | tooManyInsts => "too many instructions"
  | tooManyHints => "too many hints"

/-- Why a unit, a table or a request is refused. -/
inductive Rejection where
  | registerOutOfBounds (iidx : Nat) (reg : Reg) (edition : Edition) (numGp : Nat)
  | unsupportedWidth (iidx : Nat) (reg : Reg) (width : Width) (edition : Edition)
  | useBeforeDef (iidx : Nat) (reg : Reg)
  | readBeyondWrittenWidth (iidx : Nat) (reg : Reg) (writtenBits : Nat)
  | stackPointerWrite (iidx : Nat)
  | misplacedTerminator (iidx : Nat)
  | invalidBranchTarget (iidx target : Nat)
  | unsupportedEdition (found expected : Nat)
  | registersExhausted (edition : Edition) (numGp : Nat)
  | encode (cause : EncodeFault)
  | decode (cause : ContainerFault)
deriving DecidableEq, Repr

namespace Rejection

def message : Rejection → String
  | registerOutOfBounds iidx reg edition numGp =>
    let r := reg.name
    let e := edition.name
    s!"Instruction at position {iidx} references {r}, but edition {e} only has {numGp} general purpose registers"
  | unsupportedWidth iidx reg width edition =>
    let r := reg.name
    let w := width.name
    let e := edition.name
    s!"Instruction at position {iidx} uses {r} whose width {w} is not part of edition {e}"
  | useBeforeDef iidx reg =>
    let r := reg.name
    s!"Instruction at position {iidx} reads {r} which has no reaching write"
  | readBeyondWrittenWidth iidx reg writtenBits =>
    let r := reg.name
    s!"Instruction at position {iidx} reads {r} but on at least one path only the low {writtenBits} bits were written"
  | stackPointerWrite iidx =>
    s!"Instruction at position {iidx} modifies the stack pointer but is not an offsetting instruction"
  | misplacedTerminator iidx => s!"Terminator at position {iidx} is not the last instruction of its block"
  | invalidBranchTarget iidx target =>
    s!"Instruction at position {iidx} branches to non-existent block bb{target}"
  | unsupportedEdition found expected => s!"Unsupported edition {found} (expected edition {expected})"
  | registersExhausted edition numGp =>
    let e := edition.name
    s!"All {numGp} general purpose registers of edition {e} are in use: this can be caused by a unit with "
      ++ "too many simultaneously live values; try factoring it into smaller units"
  | encode cause =>
    let e := cause.message
    s!"Cannot encode chill table: {e}"
  | decode cause =>
    let e := cause.message
    s!"Malformed chill table: {e}"

/-- The instruction that the rejection is about. -/
def iidx? : Rejection → Option Nat
  | registerOutOfBounds iidx .. => some iidx
  | unsupportedWidth iidx .. => some iidx
  | useBeforeDef iidx _ => some iidx
  | readBeyondWrittenWidth iidx .. => some iidx
  | stackPointerWrite iidx => some iidx
  | misplacedTerminator iidx => some iidx
  | invalidBranchTarget iidx _ => some iidx
  | unsupportedEdition .. => none
  | registersExhausted .. => none
  | encode _ => none
  | decode _ => none

end Rejection

/-- A call that can be refused and can also break off. -/
inductive Failure where
  | rejected (cause : Rejection)
  | fault (cause : Fault)
deriving DecidableEq, Repr

namespace Edition

/-- The edition of a number, which must be a supported one. -/
def ofNumber (n : Nat) : Except Rejection Edition :=
  match ofNumber? n with
  | some e => .ok e
  | none => .error (.unsupportedEdition n latest.number)

/-- Refuses every edition but the one expected. -/
def expect (e expected : Edition) : Except Rejection Unit :=
  if e = expected then .ok () else .error (.unsupportedEdition e.number expected.number)

end Edition

end ChillHints
