import ChillHints.Publish.Outbox
import ChillHints.Text.Numeral

/-!
# Statistics

Statistics count the units published and refused, the hints and entries of the published ones, and the time spent in
each stage. The clock is not part of the library: each change of stage comes with a reading, in nanoseconds.

The counters and the times are shared by all threads. The stage is not: each thread has a timer of its own, and the time
that it adds is counted from its own last change.
-/

namespace ChillHints

/-- The stages that are timed. -/
inductive Stage where
  | validating
  | scanning
  | emitting
deriving DecidableEq, Repr

/-- The stage that a thread is in, and when it was entered. -/
structure Timer where
  stage : Option Stage
  since : Nat
deriving DecidableEq, Repr

/-- The timer of a new thread. -/
def Timer.idle : Timer := ⟨none, 0⟩

structure Stats where
  /-- Where the statistics go; `-` is the standard error stream. -/
  path : String
  unitsOk : Nat
  unitsErr : Nat
  hints : Nat
  entries : Nat
  /-- The time spent in each stage. -/
  validating : Nat
  scanning : Nat
  emitting : Nat
  /-- The timers of the threads. Thread 0 is the one that calls, and worker `w` of its crew is thread `w + 1`. -/
  timers : List Timer
  /-- The thread whose turn it is. -/
  thread : Nat
  /-- How many readings have been taken. -/
  readings : Nat
deriving DecidableEq, Repr

namespace Stats

def new (path : String) : Stats := ⟨path, 0, 0, 0, 0, 0, 0, 0, [.idle], 0, 0⟩

/-- A unit is published. -/
def unitOk (s : Stats) (hints entries : Nat) : Stats :=
  { s with unitsOk := s.unitsOk + 1, hints := s.hints + hints, entries := s.entries + entries }

/-- A unit is refused. -/
def unitErr (s : Stats) : Stats := { s with unitsErr := s.unitsErr + 1 }

/-- Timers for the thread that calls, whose turn it is, and for new threads that are its crew. -/
def staffed (s : Stats) (size : Nat) : Stats :=
  { s with timers := s.timers.take 1 ++ List.replicate size .idle, thread := 0 }

/-- It is the turn of another thread. -/
def turnTo (s : Stats) (thread : Nat) : Stats := { s with thread }

/-- The timer of the thread whose turn it is. -/
def timer (s : Stats) : Timer := s.timers.getD s.thread .idle

/-- Adds to the time spent in a stage. -/
def spend (s : Stats) (stage : Option Stage) (time : Nat) : Stats :=
  match stage with
  | none => s
  | some .validating => { s with validating := s.validating + time }
  | some .scanning => { s with scanning := s.scanning + time }
  | some .emitting => { s with emitting := s.emitting + time }

/-- The thread whose turn it is changes to another stage when the clock reads `now`. -/
def enter (s : Stats) (stage : Option Stage) (now : Nat) : Stats :=
  { s.spend s.timer.stage (now - s.timer.since) with
    timers := s.timers.set s.thread ⟨stage, now⟩, readings := s.readings + 1 }

/-- A time in seconds, with three places. -/
def seconds (time : Nat) : String :=
  let millis := time % 1000000000 / 1000000
  let padding := if millis < 10 then "00" else if millis < 100 then "0" else ""
  Numeral.decimal (time / 1000000000) ++ "." ++ padding ++ Numeral.decimal millis

/-- The fields, by name. -/
def fields (s : Stats) : List (String × String) :=
  [("chill_entries", Numeral.decimal s.entries), ("duration_emitting", seconds s.emitting),
    ("duration_scanning", seconds s.scanning), ("duration_validating", seconds s.validating),
    ("hints", Numeral.decimal s.hints), ("units_err", Numeral.decimal s.unitsErr),
    ("units_ok", Numeral.decimal s.unitsOk)]

/-- The statistics as an object. -/
def render (s : Stats) : String :=
  let lines := s.fields.map fun (name, value) => "\"" ++ name ++ "\": " ++ value
  "\x7b\n    " ++ ",\n    ".intercalate lines ++ "\n\x7d"

/-- Writes the statistics. -/
def write (s : Stats) (o : Outbox) : Outbox :=
  if s.path = "-" then o.report (s.render ++ "\n") else o.overwrite s.path s.render

end Stats

end ChillHints
