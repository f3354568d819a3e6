import ChillHints.NextUse.Holds
import ChillHints.NextUse.Scan
import ChillHints.Validity.Basic

/-!
# The table of next uses

For every instruction of a unit, and as seen from just after it, the table tells which groups may hold a value and
when the value of each group is used next. Only a valid unit has one: `analyse` validates first.
-/

namespace ChillHints

/-- What is known just after one instruction. -/
structure UseRow where
  uses : Uses
  holds : Holds
deriving DecidableEq

structure NextUseTable where
  edition : Edition
  /-- One row for each instruction, in program order. -/
  rows : List UseRow
deriving DecidableEq

/-- The row in words: the groups that may hold a value, each with its next use. -/
def UseRow.text (r : UseRow) : String :=
  let groups := Group.all.filter r.holds.get
  ", ".intercalate (groups.map fun g => Group.name g ++ " (" ++ (r.uses.get g).text ++ ")")

namespace NextUseTable

def instsLen (t : NextUseTable) : Nat := t.rows.length

/-- The next use of the value of `group`, from just after `iidx`. -/
def nextUse (t : NextUseTable) (iidx group : Nat) : Except Fault NextUse :=
  if h : group < 16 then
    match t.rows[iidx]? with
    | some r => .ok (r.uses.get ⟨group, h⟩)
    | none => .error (.outOfRange (t.instsLen * 16) (iidx * 16 + group))
  else .error .foreignGroup

/-- May `group` hold a value just after `iidx`? -/
def mayHold (t : NextUseTable) (iidx group : Nat) : Except Fault Bool :=
  match t.rows[iidx]? with
  | some r => (Group.ofNat group).map fun g => r.holds.get g
  | none => .error (.outOfRange t.instsLen iidx)

/-- One line for each instruction. -/
def render (t : NextUseTable) : String :=
  String.join (t.rows.zipIdx.map fun (r, i) => "%" ++ Numeral.decimal i ++ ": " ++ r.text ++ "\n")

end NextUseTable

/-- The rows of a flow. -/
def Flow.rows {n : Nat} (f : Flow n) : List UseRow := List.zipWith UseRow.mk f.usesAfter f.holdsAfter

namespace CompiledUnit

/-- The table of a unit that has been validated. -/
def scan (u : CompiledUnit) : Except Fault NextUseTable := u.flow.map fun f => ⟨u.edition, f.rows⟩

/-- Validates the unit and gives its table. -/
def analyse (u : CompiledUnit) : Except Failure NextUseTable :=
  match u.validate with
  | .error e => .error e
  | .ok () => u.scan.mapError .fault

end CompiledUnit

end ChillHints
