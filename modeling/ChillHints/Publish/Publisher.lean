import ChillHints.Hint.Emit
import ChillHints.Publish.Crew
import ChillHints.Publish.Dump
import ChillHints.Publish.Log
import ChillHints.Publish.Stats
import ChillHints.Setting.Config
import ChillHints.Code.Printer

/-!
# Publishing

To publish a unit is to validate it, to find its next uses, and to choose its hints. The unit and its hints together
are an artifact. On the way the publisher writes the log, the dump, and the statistics, all of which are on its
desk.
-/

namespace ChillHints

/-- A unit and its hints, unless they have been removed. -/
structure Artifact where
  unit : CompiledUnit
  hints : Option HintTable
deriving DecidableEq

/-- Removes the hints. The unit runs without them. -/
def Artifact.stripHints (a : Artifact) : Artifact := { a with hints := none }

/-- What a publisher has in front of it. -/
structure Desk where
  outbox : Outbox
  /-- The statistics, if they are asked for. -/
  stats : Option Stats
  dumping : Dumping
deriving DecidableEq

/-- Changes the statistics, if there are any. -/
def Desk.tally (f : Stats → Stats) (d : Desk) : Desk := { d with stats := d.stats.map f }

/-- Work at a desk. Work that breaks off leaves the desk as it is. -/
abbrev Work := ExceptT Fault (StateM Desk)

structure Publisher where
  config : Config
  log : Log
  /-- The readings of the clock, first to last. -/
  clock : Nat → Nat
  /-- How many workers there are if the configuration does not say. -/
  processors : Nat

namespace Work

/-- Changes the statistics, if there are any. -/
def tally (f : Stats → Stats) : Work Unit := modify (Desk.tally f)

/-- Writes a message to the log. -/
def logged (log : Log) (level : LogLevel) (message : String) : Work Unit := do
  let d ← get
  let outbox ← ExceptT.mk (pure (log.write level message d.outbox))
  set { d with outbox }

/-- The dump, if phase `p` is to be dumped. -/
def dumpFor (p : DumpPhase) : Work (Option Dump) := do
  let d ← get
  let (result, dumping, outbox) := d.dumping.force d.outbox
  set { d with dumping, outbox }
  let dump ← ExceptT.mk (pure result)
  return dump.filter (·.phases.contains p)

/-- Dumps a result. -/
def dump (p : DumpPhase) (name body : String) : Work Unit := do
  match ← dumpFor p with
  | some dump => modify fun d => { d with outbox := dump.write (Dump.block p name body) d.outbox }
  | none => pure ()

end Work

namespace Publisher

/-- Changes to another stage. -/
def enter (p : Publisher) (stage : Option Stage) : Work Unit :=
  Work.tally fun s => s.enter stage (p.clock s.readings)

/-- The hints of a unit. -/
def chill (p : Publisher) (u : CompiledUnit) : Work (Except Rejection HintTable) := do
  match u.edition.expect p.config.edition with
  | .error r => return .error r
  | .ok () =>
    Work.dump .unit u.name u.render
    p.enter (some .validating)
    match u.validate with
    | .error (.rejected r) => return .error r
    | .error (.fault f) => throw f
    | .ok () =>
      p.enter (some .scanning)
      let uses ← ExceptT.mk (pure u.scan)
      Work.dump .nextUse u.name uses.render
      p.enter (some .emitting)
      let hints := uses.emit p.config.minChillDist
      Work.dump .hints u.name hints.render
      return .ok hints

/-- Says in the log what has been published. -/
def announce (p : Publisher) (u : CompiledUnit) (t : HintTable) : Work Unit := do
  let hints := Numeral.decimal t.numHints
  let entries := Numeral.decimal t.numEntries
  let name := u.name
  Work.logged p.log .unitEvent s!"published {name}: {hints} hints, {entries} entries"
  if p.log.enabled .hintEvent then
    t.hints.forM fun h => Work.logged p.log .hintEvent (name ++ " " ++ h.text)

/-- Publishes a unit. -/
def publish (p : Publisher) (u : CompiledUnit) : Work (Except Rejection Artifact) := do
  let chilled ← p.chill u
  p.enter none
  match chilled with
  | .ok t =>
    Work.tally (·.unitOk t.numHints t.numEntries)
    p.announce u t
    return .ok ⟨u, some t⟩
  | .error r =>
    Work.tally Stats.unitErr
    Work.logged p.log .error ("rejected " ++ u.name ++ ": " ++ r.message)
    return .error r

/-- Publishing a unit as the job of worker number `w`. -/
def job (p : Publisher) (w : Nat) (u : CompiledUnit) (d : Desk) : Except Fault (Except Rejection Artifact) × Desk :=
  (p.publish u).run (d.tally (·.turnTo (w + 1)))

/-- How many workers publish `n` units. -/
def numWorkers (p : Publisher) (n : Nat) : Nat := max 1 (min (p.config.jobs.getD p.processors) n)

/-- The crew that is to publish the units. -/
def crew (p : Publisher) (units : List CompiledUnit) (d : Desk) : Crew CompiledUnit (Except Rejection Artifact) Desk :=
  let size := p.numWorkers units.length
  Crew.start size units (d.tally (·.staffed size))

/-- Publishes units with a crew whose workers make their steps as the schedule says. The results are in the order of the
units. -/
def publishAllBy (p : Publisher) (schedule : List Nat) (units : List CompiledUnit) :
    Work (List (Except Rejection Artifact)) := do
  if units.isEmpty then
    Work.logged p.log .warning "publish_all called with no units"
    return []
  let done := (p.crew units (← get)).run p.job schedule
  set (done.shared.tally (·.staffed 0))
  ExceptT.mk (pure done.results)

/-- Publishes units with a crew whose workers come one after the other. -/
def publishAll (p : Publisher) (units : List CompiledUnit) : Work (List (Except Rejection Artifact)) :=
  p.publishAllBy (Crew.inTurn (p.numWorkers units.length) units.length) units

/-- A publisher set up as the environment asks for, and its desk. -/
def ofEnvironment (env : Environment) (clock : Nat → Nat) (processors : Nat) :
    Except SettingFault Publisher × Desk :=
  let stats := (env.lookup "YKCHILL_LOG_STATS").map Stats.new
  let dumping := Dumping.unread (env.lookup "YKCHILL_LOG_IR")
  match Config.ofEnvironment env with
  | .error e => (.error e, ⟨.empty, none, dumping⟩)
  | .ok config =>
    match Log.ofSetting (env.lookup "YKCHILL_LOG") .empty with
    | (.error e, outbox) => (.error e, ⟨outbox, none, dumping⟩)
    | (.ok log, outbox) => (.ok ⟨config, log, clock, processors⟩, ⟨outbox, stats, dumping⟩)

end Publisher

/-- Writes the statistics, if they are asked for. -/
def Desk.writeStats (d : Desk) : Desk :=
  match d.stats with
  | some s => { d with outbox := s.write d.outbox }
  | none => d

end ChillHints
