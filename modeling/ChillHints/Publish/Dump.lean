import ChillHints.Fault
import ChillHints.Publish.Outbox

/-!
# The dump of intermediate results

The setting of the dump is `[<path>:]<phase>[,<phase>…]`, and the path `-` is the standard error stream. The setting
is looked at when a unit is first published; only then is the file emptied. A setting that cannot be used is a fault
each time the dump is asked for.
-/

namespace ChillHints

/-- What can be dumped. -/
inductive DumpPhase where
  /-- The unit as it came. -/
  | unit
  /-- The table of next uses. -/
  | nextUse
  | hints
deriving DecidableEq, Repr

namespace DumpPhase

def all : List DumpPhase := [unit, nextUse, hints]

def name : DumpPhase → String
  | unit => "unit"
  | nextUse => "next_use"
  | hints => "hints"

def ofName (s : String) : Except SettingFault DumpPhase :=
  match all.find? fun p => p.name == s with
  | some p => .ok p
  | none => .error (.dumpPhase s)

end DumpPhase

/-- Where to dump what. -/
structure Dump where
  path : String
  phases : List DumpPhase
deriving DecidableEq, Repr

namespace Dump

/-- Reads a setting. -/
def ofSetting (setting : String) : Except SettingFault Dump := do
  let (path, phases) ← match Text.pieces (· == ':') setting.toList with
    | [path, phases] => .ok (path, phases)
    | [phases] => .ok (['-'], phases)
    | _ => .error .dumpFormat
  let phases ← (Text.pieces (· == ',') phases).mapM fun s => DumpPhase.ofName (String.ofList s)
  return ⟨String.ofList path, phases⟩

/-- How many different phases are dumped. -/
def numPhases (d : Dump) : Nat := d.phases.eraseDups.length

/-- Writes a text. -/
def write (d : Dump) (s : String) (o : Outbox) : Outbox := if d.path = "-" then o.report s else o.append d.path s

/-- The text of a result of phase `p` for the unit `name`. -/
def block (p : DumpPhase) (name body : String) : String :=
  "--- Begin " ++ p.name ++ ": " ++ name ++ " ---\n" ++ body ++ "--- End " ++ p.name ++ " ---\n"

end Dump

/-- The dump as far as its setting has been looked at. -/
inductive Dumping where
  | unread (setting : Option String)
  | off
  | on (dump : Dump)
  | broken
deriving DecidableEq, Repr

namespace Dumping

/-- Looks at the setting if that has not been done: the state afterwards, and the dump if there is one. -/
def force (d : Dumping) (o : Outbox) : Except Fault (Option Dump) × Dumping × Outbox :=
  match d with
  | off => (.ok none, off, o)
  | on dump => (.ok (some dump), on dump, o)
  | broken => (.error .dumpBroken, broken, o)
  | unread none => (.ok none, off, o)
  | unread (some setting) =>
    match Dump.ofSetting setting with
    | .error e => (.error (.dumpSetting e), broken, o)
    | .ok dump => (.ok (some dump), on dump, if dump.path = "-" then o else o.truncate dump.path)

end Dumping

end ChillHints
