import ChillHints.Register.Edition
import ChillHints.Setting.Fault

/-!
# The configuration

Three settings change what is published: the edition that units must be in, the distance from which on a register is
worth chilling, and the number of workers. A setting that is not given has its default; the default number of
workers is left to the machine.
-/

namespace ChillHints

/-- The values of environment variables. -/
abbrev Environment := List (String × String)

structure Config where
  /-- Units of any other edition are refused. -/
  edition : Edition
  /-- A register that is used sooner than this is not chilled. -/
  minChillDist : Nat
  /-- How many workers there may be, if it was said. -/
  jobs : Option Nat
deriving DecidableEq, Repr

namespace Config

def standard : Config := ⟨.latest, 4, none⟩

/-- The number that a setting gives, at most `max`. -/
def numberSetting (variableName value : String) (max : Nat) : Except SettingFault Nat :=
  (Numeral.readNat max value.toList).mapError (.notNumber variableName value)

/-- The number that a setting gives, from 1 to `max`. -/
def positiveSetting (variableName value : String) (max : Nat) : Except SettingFault Nat := do
  let n ← numberSetting variableName value max
  if n = 0 then throw (.zero variableName)
  return n

def editionSetting (value : String) : Except SettingFault Edition := do
  let n ← numberSetting "YKCHILL_EDITION" value 0xffffffff
  match Edition.ofNumber? n with
  | some e => return e
  | none => throw (.unsupportedEdition n Edition.latest.number)

/-- The configuration that the environment asks for. -/
def ofEnvironment (env : Environment) : Except SettingFault Config := do
  let edition ← match env.lookup "YKCHILL_EDITION" with
    | some value => editionSetting value
    | none => pure standard.edition
  let minChillDist ← match env.lookup "YKCHILL_MIN_CHILL_DIST" with
    | some value => positiveSetting "YKCHILL_MIN_CHILL_DIST" value 0xffffffff
    | none => pure standard.minChillDist
  let jobs ← match env.lookup "YKCHILL_JOBS" with
    | some value => some <$> positiveSetting "YKCHILL_JOBS" value 0xffffffffffffffff
    | none => pure standard.jobs
  return ⟨edition, minChillDist, jobs⟩

end Config

end ChillHints
