import ChillHints.Text.Numeral

/-!
# Settings that cannot be used

A setting is the value of one of the `YKCHILL_` environment variables. `SettingFault` lists what can be wrong with
one, and `message` words it.
-/

namespace ChillHints

/-- Why the value of a setting is refused. -/
inductive SettingFault where
  /-- The value should be a number. -/
  | notNumber (variableName value : String) (cause : NumeralFault)
  /-- The value is zero where at least one is needed. -/
  | zero (variableName : String)
  | unsupportedEdition (found expected : Nat)
  | logFormat
  /-- `setting` is the whole value, of which the level is a part. -/
  | logLevel (setting : String) (cause : NumeralFault)
  | logLevelTooHigh (level maximum : Nat)
  | dumpFormat
  | dumpPhase (name : String)
deriving DecidableEq, Repr

def SettingFault.message : SettingFault → String
  | notNumber variableName value cause =>
    let e := cause.message
    s!"Invalid {variableName} '{value}': {e}"
  | zero variableName => s!"{variableName} must be at least 1"
  | unsupportedEdition found expected => s!"Unsupported edition {found} (expected edition {expected})"
  | logFormat => "YKCHILL_LOG must be of the format `[<path|->:]<level>`"
  | logLevel setting cause =>
    let e := cause.message
    s!"Invalid YKCHILL_LOG level '{setting}': {e}"
  | logLevelTooHigh level maximum => s!"YKCHILL_LOG level {level} exceeds maximum {maximum}"
  | dumpFormat => "YKCHILL_LOG_IR must be of the format '[<path>:]<phase_1>[,...,<phase_n>]'"
  | dumpPhase name => s!"Invalid YKCHILL_LOG_IR value: {name}"

end ChillHints
