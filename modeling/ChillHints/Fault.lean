import ChillHints.Setting.Fault

/-!
# Faults: calls that break off

A fault ends a call without an answer: a text that is no unit, an index beyond the end of what it points into, a
read of a value that is not there. Faults are kept apart from rejections, which are answers about a unit or a table.
The wording of every fault is in `ParseFault.message` and `Fault.message`.
-/

namespace ChillHints

/-- Why a text is not a unit. `line` is the offending line, without the blanks around it. -/
inductive ParseFault where
  | header (line : String)
  | editionNumeral (cause : NumeralFault)
  | editionUnsupported (found expected : Nat)
  | block (label line : String)
  | firstBlock (line : String) (found : Nat)
  | blockOrder (line : String) (found expected : Nat)
  | instBeforeBlock (line : String)
  | register (name line : String)
  | constant (line : String)
  | callTarget (line : String)
  | binOp (line : String)
  | offset (line : String)
  | instruction (line : String)
deriving DecidableEq, Repr

/-- Two numbers that should be equal and are not. -/
def unequalMessage (about : String) (left right : Nat) : String :=
  s!"assertion `left == right` failed: {about}\n  left: {left}\n right: {right}"

def ParseFault.message : ParseFault → String
  | header line => s!"Malformed header '{line}'"
  | editionNumeral cause =>
    let kind := cause.kind
    s!"called `Result::unwrap()` on an `Err` value: ParseIntError \x7b kind: {kind} \x7d"
  | editionUnsupported found expected =>
    s!"called `Result::unwrap()` on an `Err` value: UnsupportedEdition \x7b found: {found}, expected: {expected} \x7d"
  | block label line => s!"Invalid block '{label}' in '{line}'"
  | firstBlock line found => unequalMessage s!"First block must be bb0 at '{line}'" found 0
  | blockOrder line found expected => unequalMessage s!"Block out of order at '{line}'" found expected
  | instBeforeBlock line => s!"Instruction before first block at '{line}'"
  | register name line => s!"Invalid register '{name}' in '{line}'"
  | constant line => s!"Invalid constant in '{line}'"
  | callTarget line => s!"Invalid call target in '{line}'"
  | binOp line => s!"Invalid binary operation in '{line}'"
  | offset line => s!"Invalid offset in '{line}'"
  | instruction line => s!"Malformed instruction '{line}'"

/-- Why a call broke off. -/
inductive Fault where
  /-- The text given as a unit is none. -/
  | unreadable (cause : ParseFault)
  /-- An index beyond the last of `length` things. -/
  | outOfRange (length index : Nat)
  /-- A number too large for an index that goes up to `limit`. -/
  | indexOverflow (value limit : Nat)
  /-- A group number that no register has, in a question about next uses. -/
  | foreignGroup
  /-- A read of storage that holds nothing. -/
  | absentValue
  /-- A read of a group that is neither in a register nor in a spill slot. -/
  | noValue (group : Nat)
  /-- A read of a value that was thrown away. -/
  | readAfterForever (group step : Nat)
  /-- A read of a value before the step that its hint named. -/
  | readEarly (group step earliest : Nat)
  /-- A message was logged at the level that stands for silence. -/
  | silentLevel
  /-- The setting of the dump cannot be used. -/
  | dumpSetting (cause : SettingFault)
  /-- The dump is asked for again after its setting could not be used. -/
  | dumpBroken
  /-- A worker of a crew broke off. -/
  | workerFailed
deriving DecidableEq, Repr

def Fault.message : Fault → String
  | unreadable cause => cause.message
  | outOfRange length index => s!"index out of bounds: the len is {length} but the index is {index}"
  | indexOverflow value limit => s!"index_vec index overflow: {value} is outside the range [0, {limit})"
  | foreignGroup => "assertion failed: group.index() < self.num_groups"
  | absentValue => "called `Option::unwrap()` on a `None` value"
  | noValue group => s!"group {group} has no value"
  | readAfterForever group step => s!"group {group} read at step {step} after being chilled forever"
  | readEarly group step earliest =>
    s!"group {group} read at step {step} but was chilled until step {earliest}"
  | silentLevel => "explicit panic"
  | dumpSetting cause => cause.message
  | dumpBroken => "LazyLock instance has previously been poisoned"
  | workerFailed => "a scoped thread panicked"

/-- A number as an index that goes up to `limit`. -/
def indexUpTo (limit n : Nat) : Except Fault Nat := if n ≤ limit then .ok n else .error (.indexOverflow n limit)

/-- Two calls in a row have an answer when the first has one and the second has one to it. -/
theorem bind_eq_ok {ε α β : Type} {x : Except ε α} {f : α → Except ε β} {r : β} :
    x >>= f = .ok r ↔ ∃ a, x = .ok a ∧ f a = .ok r := by
  cases x with
  | ok a => simp [bind, Except.bind]
  | error e => simp [bind, Except.bind]

/-- Two calls in a row break off when the first does, or the second on the answer of the first. -/
theorem bind_eq_error {ε α β : Type} {x : Except ε α} {f : α → Except ε β} {e : ε} :
    x >>= f = .error e ↔ x = .error e ∨ ∃ a, x = .ok a ∧ f a = .error e := by
  cases x with
  | ok a => simp [bind, Except.bind]
  | error e => simp [bind, Except.bind]

/-- The second call goes on from the answer of the first. -/
theorem bind_of_ok {ε α β : Type} {x : Except ε α} {a : α} (h : x = .ok a) (f : α → Except ε β) : x >>= f = f a := by
  rw [h]
  rfl

theorem map_eq_ok {ε α β : Type} {x : Except ε α} {f : α → β} {r : β} :
    x.map f = .ok r ↔ ∃ a, x = .ok a ∧ f a = r := by
  cases x with
  | ok a => simp [Except.map]
  | error e => simp [Except.map]

/-- Another account of what went wrong leaves an answer as it is. -/
theorem mapError_ok_iff {ε δ α : Type} {x : Except ε α} {tell : ε → δ} {a : α} :
    x.mapError tell = .ok a ↔ x = .ok a := by
  cases x with
  | ok b => constructor <;> intro h <;> cases h <;> rfl
  | error e => constructor <;> intro h <;> cases h

theorem toOption_eq_some {ε α : Type} {x : Except ε α} {a : α} : x.toOption = some a ↔ x = .ok a := by
  cases x <;> simp [Except.toOption]

end ChillHints
