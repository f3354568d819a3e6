import ChillHints.Fault
import ChillHints.Publish.Outbox

/-!
# The log

The setting of the log is `[<path|->:]<level>`. Messages up to the level are written, each on a line with a prefix
that names its level. The file is emptied when the log is opened, even if the level then turns out to be none.
-/

namespace ChillHints

/-- How much is logged, and how important a message is. -/
inductive LogLevel where
  /-- Nothing is logged. No message has this level. -/
  | disabled
  | error
  | warning
  /-- A unit is published. -/
  | unitEvent
  /-- A hint is published. -/
  | hintEvent
deriving DecidableEq, Repr

namespace LogLevel

def all : List LogLevel := [disabled, error, warning, unitEvent, hintEvent]

def rank : LogLevel → Nat
  | disabled => 0
  | error => 1
  | warning => 2
  | unitEvent => 3
  | hintEvent => 4

def ofRank? (n : Nat) : Option LogLevel := all[n]?

/-- What messages of the level begin with. -/
def tag? : LogLevel → Option String
  | disabled => none
  | error => some "ykchill-error"
  | warning => some "ykchill-warning"
  | unitEvent => some "ykchill-unit-event"
  | hintEvent => some "ykchill-hint-event"

end LogLevel

structure Log where
  level : LogLevel
  /-- Where messages go, if not to the standard error stream. -/
  path : Option String
deriving DecidableEq, Repr

namespace Log

/-- The log of a setting that is not given. -/
def standard : Log := ⟨.error, none⟩

/-- The level in a setting. -/
def levelOf (setting : String) (level : Text) : Except SettingFault LogLevel := do
  let n ← (Numeral.readUInt8 level).mapError (.logLevel setting)
  match LogLevel.ofRank? n.toNat with
  | some l => return l
  | none => throw (.logLevelTooHigh n.toNat (LogLevel.all.length - 1))

/-- Opens the log. -/
def ofSetting (setting : Option String) (o : Outbox) : Except SettingFault Log × Outbox :=
  match setting with
  | none => (.ok standard, o)
  | some s =>
    match Text.pieces (· == ':') s.toList with
    | [path, level] =>
      if path = ['-'] then ((levelOf s level).map fun l => ⟨l, none⟩, o)
      else
        let path := String.ofList path
        ((levelOf s level).map fun l => ⟨l, some path⟩, o.truncate path)
    | [level] => ((levelOf s level).map fun l => ⟨l, none⟩, o)
    | _ => (.error .logFormat, o)

/-- Are messages of the level written? -/
def enabled (log : Log) (level : LogLevel) : Bool := level != .disabled && level.rank ≤ log.level.rank

/-- Writes a message. -/
def write (log : Log) (level : LogLevel) (message : String) (o : Outbox) : Except Fault Outbox :=
  match level.tag? with
  | none => .error .silentLevel
  | some tag =>
    if log.enabled level then
      let line := tag ++ ": " ++ message ++ "\n"
      match log.path with
      | some path => .ok (o.append path line)
      | none => .ok (o.report line)
    else .ok o

end Log

end ChillHints
