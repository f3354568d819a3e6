import ChillHints.Proofs.Account
import ChillHints.Proofs.Emission
import ChillHints.Proofs.Publishing

/-!
# The statistics agree with the results

To publish a unit is to make a sequence of strokes at the desk (`publish_eq`): to look at the dump, to change to another
stage, to count the unit, to write to the log. Other workers can be at the desk between any two of them. At a desk with
statistics and without a dump (`Counting`) no stroke breaks off (`exists_act_eq`), and only the one that counts the unit
changes the counters (`accountable_act`). What it adds is what there is to count in the result (`due_task`).

How long the stages take is up to the clock. But the time that a worker adds is its own: while it makes no stroke, its
timer stays as it is, whatever the others do (`timer?_runStrokes`).

By what is known of crews, each counter then grows by what there is to count in the results, whether units are published
one at a time, by a crew, or by a crew stroke by stroke (`Call`); and so it does in every sequence of calls
(`stats_agree`).
-/

namespace ChillHints

/-! ## Strokes -/

/-- What is done at the desk at one go when a unit is published. -/
inductive Stroke where
  | dump (phase : DumpPhase) (name body : String)
  | enter (stage : Option Stage)
  | unitOk (hints entries : Nat)
  | unitErr
  | log (level : LogLevel) (loud : level ≠ .disabled) (message : String)
deriving DecidableEq

/-- A stroke as work at the desk. -/
def Stroke.work (p : Publisher) : Stroke → Work Unit
  | dump phase name body => Work.dump phase name body
  | enter stage => p.enter stage
  | unitOk hints entries => Work.tally (·.unitOk hints entries)
  | unitErr => Work.tally Stats.unitErr
  | log level _ message => Work.logged p.log level message

/-- What a stroke does to the statistics. -/
def Stroke.change (p : Publisher) : Stroke → Stats → Stats
  | dump .., s => s
  | enter stage, s => s.enter stage (p.clock s.readings)
  | unitOk hints entries, s => s.unitOk hints entries
  | unitErr, s => s.unitErr
  | log .., s => s

/-- An analysis does not break off. -/
theorem CompiledUnit.analyse_ne_fault (u : CompiledUnit) (f : Fault) : u.analyse ≠ .error (.fault f) := by
  intro h
  rcases u.validate_ok_or_rejected with hv | ⟨r, hr⟩
  · obtain ⟨t, -, ht, -⟩ := exists_scan hv
    rw [ht] at h
    cases h
  · simp only [analyse, hr] at h
    cases h

/-- The next uses of a unit, or why it is rejected. -/
def CompiledUnit.uses (u : CompiledUnit) : Except Rejection NextUseTable :=
  match h : u.analyse with
  | .ok t => .ok t
  | .error (.rejected r) => .error r
  | .error (.fault f) => absurd h (u.analyse_ne_fault f)

/-- A unit is valid and has next uses, or is rejected. -/
theorem CompiledUnit.uses_cases (u : CompiledUnit) :
    (∃ t, u.validate = .ok () ∧ u.scan = .ok t ∧ u.uses = .ok t) ∨
      ∃ r, u.validate = .error (.rejected r) ∧ u.uses = .error r := by
  rcases u.validate_ok_or_rejected with hv | ⟨r, hr⟩
  · obtain ⟨t, hscan, ht, -⟩ := exists_scan hv
    refine Or.inl ⟨t, hv, hscan, ?_⟩
    unfold uses
    split <;> simp_all
  · have hr' : u.analyse = .error (.rejected r) := by rw [analyse, hr]
    refine Or.inr ⟨r, hr, ?_⟩
    unfold uses
    split <;> simp_all

namespace Publisher

variable (p : Publisher) (u : CompiledUnit)

/-- The strokes that announce the hints of a unit. -/
def announcement (t : HintTable) : List Stroke :=
  let hints := Numeral.decimal t.numHints
  let entries := Numeral.decimal t.numEntries
  let name := u.name
  .log .unitEvent (by decide) s!"published {name}: {hints} hints, {entries} entries" ::
    if p.log.enabled .hintEvent then t.hints.map fun h => .log .hintEvent (by decide) (u.name ++ " " ++ h.text) else []

/-- The strokes that publish a unit, and what comes of them. -/
def task : Task Stroke (Except Rejection Artifact) :=
  match u.uses with
  | .ok t =>
    let hints := t.emit p.config.minChillDist
    ⟨[.dump .unit u.name u.render, .enter (some .validating), .enter (some .scanning), .dump .nextUse u.name t.render,
      .enter (some .emitting), .dump .hints u.name hints.render, .enter none,
      .unitOk hints.numHints hints.numEntries] ++ p.announcement u hints, .ok ⟨u, some hints⟩⟩
  | .error r =>
    ⟨[.dump .unit u.name u.render, .enter (some .validating), .enter none, .unitErr,
      .log .error (by decide) ("rejected " ++ u.name ++ ": " ++ r.message)], .error r⟩

theorem announce_eq (t : HintTable) : p.announce u t = (p.announcement u t).forM (Stroke.work p) := by
  unfold announce announcement
  split <;> simp [Stroke.work]

/-- **Publishing is a sequence of strokes.** -/
theorem publish_eq : p.publish u = do
    (p.task u).strokes.forM (Stroke.work p)
    return (p.task u).result := by
  rcases u.uses_cases with ⟨t, hv, hscan, huses⟩ | ⟨r, hr, huses⟩
  · have hpure : (ExceptT.mk (pure (Except.ok t)) : Work NextUseTable) = pure t := rfl
    simp [publish, chill, task, Edition.expect_eq_ok, hv, hscan, huses, hpure, announce_eq, Stroke.work]
  · simp [publish, chill, task, Edition.expect_eq_ok, hr, huses, Stroke.work]

/-- A stroke as a change of the desk. -/
def act (x : Stroke) (d : Desk) : Except Fault Unit × Desk := (x.work p).run d

/-- A stroke of worker number `w`. -/
def actBy (w : Nat) (x : Stroke) (d : Desk) : Except Fault Unit × Desk := p.act x (d.tally (·.turnTo (w + 1)))

theorem make_act (xs : List Stroke) (d : Desk) : Task.make p.act xs d = (xs.forM (Stroke.work p)).run d := by
  induction xs generalizing d with
  | nil => rfl
  | cons x xs ih =>
    have hcons : (x :: xs).forM (Stroke.work p) = x.work p >>= fun _ => xs.forM (Stroke.work p) := rfl
    rw [hcons, Work.run_bind, Task.make, act]
    simp only [ih]
    cases ((x.work p).run d : Except Fault Unit × Desk) with
    | mk result d' => cases result <;> rfl

/-- A unit is published if all strokes are made at one go. -/
theorem run_publish_eq (d : Desk) : (p.publish u).run d = (p.task u).work p.act d := by
  rw [publish_eq, Work.run_bind, Task.work, make_act]
  cases (((p.task u).strokes.forM (Stroke.work p)).run d : Except Fault Unit × Desk) with
  | mk result d' => cases result <;> rfl

end Publisher

/-! ## Counters -/

/-- Statistics are asked for, and no dump. -/
structure Desk.Counting (d : Desk) : Prop where
  stats : d.stats.isSome
  dumping : d.dumping = .unread none ∨ d.dumping = .off

theorem Desk.Counting.tally {d : Desk} (h : d.Counting) (f : Stats → Stats) : (d.tally f).Counting :=
  ⟨Option.isSome_map.trans h.stats, h.dumping⟩

/-- The counters of the statistics. -/
inductive Counter where
  | unitsOk
  | unitsErr
  | hints
  | entries

/-- The table of a unit that has been published. -/
def table? (r : Except Rejection Artifact) : Option HintTable := r.toOption.bind Artifact.hints

namespace Counter

def read : Counter → Stats → Nat
  | unitsOk, s => s.unitsOk
  | unitsErr, s => s.unitsErr
  | hints, s => s.hints
  | entries, s => s.entries

/-- What the counter reads at a desk. -/
def reading (k : Counter) (d : Desk) : Nat := (d.stats.map k.read).getD 0

/-- What a stroke adds to the counter. -/
def cost (k : Counter) : Stroke → Nat
  | .unitOk h e =>
    match k with
    | unitsOk => 1
    | unitsErr => 0
    | hints => h
    | entries => e
  | .unitErr =>
    match k with
    | unitsErr => 1
    | _ => 0
  | .dump .. => 0
  | .enter _ => 0
  | .log .. => 0

/-- What there is to count in a result. -/
def count : Counter → Except Rejection Artifact → Nat
  | unitsOk, r => if r.isOk then 1 else 0
  | unitsErr, r => if !r.isOk then 1 else 0
  | hints, r => ((table? r).map HintTable.numHints).getD 0
  | entries, r => ((table? r).map HintTable.numEntries).getD 0

variable (k : Counter)

/-- A change of the statistics that is not counted. -/
theorem reading_tally {f : Stats → Stats} (hf : ∀ s, k.read (f s) = k.read s) (d : Desk) :
    k.reading (d.tally f) = k.reading d := by
  rw [reading, Desk.tally, Option.map_map, reading]
  congr 2
  exact funext hf

/-- Whose turn it is, and whose it can be, is not counted. -/
theorem read_turnTo (thread : Nat) (s : Stats) : k.read (s.turnTo thread) = k.read s := by
  cases k <;> rfl

theorem read_staffed (size : Nat) (s : Stats) : k.read (s.staffed size) = k.read s := by
  cases k <;> rfl

/-- To change to another stage is not counted. -/
theorem read_enter (s : Stats) (stage : Option Stage) (now : Nat) : k.read (s.enter stage now) = k.read s := by
  have hspend : k.read (s.spend s.timer.stage (now - s.timer.since)) = k.read s := by
    unfold Stats.spend
    cases k <;> split <;> rfl
  cases k <;> exact hspend

theorem read_unitOk (s : Stats) (hints entries : Nat) :
    k.read (s.unitOk hints entries) = k.read s + k.cost (.unitOk hints entries) := by
  cases k <;> rfl

theorem read_unitErr (s : Stats) : k.read s.unitErr = k.read s + k.cost .unitErr := by
  cases k <;> rfl

/-- A stroke adds its cost. -/
theorem read_change (p : Publisher) (x : Stroke) (s : Stats) : k.read (x.change p s) = k.read s + k.cost x := by
  cases x with
  | enter stage => exact k.read_enter ..
  | unitOk hints entries => exact k.read_unitOk ..
  | unitErr => exact k.read_unitErr ..
  | dump phase name body => rfl
  | log level loud message => rfl

end Counter

/-- Writing a message changes the outbox only. -/
theorem Work.run_logged_of_write {log : Log} {level : LogLevel} {message : String} {d : Desk} {o : Outbox}
    (h : log.write level message d.outbox = .ok o) :
    ((logged log level message).run d : Except Fault Unit × Desk) = (.ok (), { d with outbox := o }) := by
  have hset : ∀ r : Except Fault Outbox, r = .ok o →
      ((ExceptT.mk (pure r) >>= fun outbox => set { d with outbox } : Work Unit).run d : Except Fault Unit × Desk) =
        (.ok (), { d with outbox := o }) := by
    rintro r rfl
    rfl
  exact hset _ h

namespace Publisher

/-- **What a stroke does at a desk with statistics and without a dump.** -/
theorem exists_act_eq (p : Publisher) (x : Stroke) {d : Desk} (hd : d.Counting) :
    ∃ d', p.act x d = (.ok (), d') ∧ d'.Counting ∧ d'.stats = d.stats.map (x.change p) := by
  obtain ⟨o, stats, dumping⟩ := d
  obtain ⟨hstats, hdumping⟩ := hd
  obtain ⟨s, rfl⟩ := Option.isSome_iff_exists.mp hstats
  cases x with
  | dump phase name body =>
    refine ⟨⟨o, some s, .off⟩, ?_, ⟨rfl, Or.inr rfl⟩, rfl⟩
    rcases hdumping with rfl | rfl <;> rfl
  | enter stage => exact ⟨⟨o, some (s.enter stage (p.clock s.readings)), dumping⟩, rfl, ⟨rfl, hdumping⟩, rfl⟩
  | unitOk hints entries => exact ⟨⟨o, some (s.unitOk hints entries), dumping⟩, rfl, ⟨rfl, hdumping⟩, rfl⟩
  | unitErr => exact ⟨⟨o, some s.unitErr, dumping⟩, rfl, ⟨rfl, hdumping⟩, rfl⟩
  | log level loud message =>
    obtain ⟨o', ho⟩ := p.log.exists_write loud message o
    exact ⟨⟨o', some s, dumping⟩, Work.run_logged_of_write ho, ⟨rfl, hdumping⟩, rfl⟩

/-- Of the counters it changes only those of which it counts something. -/
theorem accountable_act (p : Publisher) (k : Counter) :
    Accountable p.act Desk.Counting (fun _ => ()) k.reading k.cost := by
  intro x d hd
  obtain ⟨d', hact, hd', hstats⟩ := p.exists_act_eq x hd
  obtain ⟨s, hs⟩ := Option.isSome_iff_exists.mp hd.stats
  refine ⟨d', hact, hd', ?_⟩
  rw [Counter.reading, Counter.reading, hstats, hs]
  exact k.read_change p x s

theorem accountable_actBy (p : Publisher) (k : Counter) (w : Nat) :
    Accountable (p.actBy w) Desk.Counting (fun _ => ()) k.reading k.cost :=
  (p.accountable_act k).after (fun _ hd => hd.tally _) (k.reading_tally (k.read_turnTo (w + 1)))

variable (p : Publisher) (u : CompiledUnit) (k : Counter)

/-- **What is added when a unit is published is what there is to count in the result.** -/
theorem due_task : (p.task u).due k.cost = k.count (p.task u).result := by
  have hannounce : ∀ t, ((p.announcement u t).map k.cost).sum = 0 := by
    intro t
    unfold announcement
    split <;> simp [Counter.cost, Function.comp_def]
  unfold task
  cases u.uses with
  | ok t =>
    rw [Task.due, List.map_append, List.sum_append, hannounce]
    cases k <;> simp [Counter.cost, Counter.count, table?, Except.isOk, Except.toBool, Except.toOption]
  | error r =>
    rw [Task.due]
    cases k <;> simp [Counter.cost, Counter.count, table?, Except.isOk, Except.toBool, Except.toOption]

/-- **What it does to publish a unit**, at one go. -/
theorem accountable_publish : Accountable (fun u d => (p.publish u).run d) Desk.Counting (fun u => (p.task u).result)
    k.reading fun u => k.count (p.task u).result := by
  intro u d hd
  obtain ⟨d', hdone, hd', hadds⟩ := Task.accountable_work (p.accountable_act k) (p.task u) d hd
  rw [due_task] at hadds
  exact ⟨d', (p.run_publish_eq u d).trans hdone, hd', hadds⟩

theorem accountable_job (w : Nat) : Accountable (p.job w) Desk.Counting (fun u => (p.task u).result) k.reading
    fun u => k.count (p.task u).result :=
  (p.accountable_publish k).after (fun _ hd => hd.tally _) (k.reading_tally (k.read_turnTo (w + 1)))

end Publisher

/-! ## Timers -/

/-- The timer of a thread. -/
def Desk.timer? (d : Desk) (thread : Nat) : Option Timer := d.stats.bind (·.timers[thread]?)

/-- A stroke changes no timer but that of the thread whose turn it is. -/
theorem Stroke.timers_change (p : Publisher) (x : Stroke) (s : Stats) {thread : Nat} (h : thread ≠ s.thread) :
    (x.change p s).timers[thread]? = s.timers[thread]? := by
  cases x with
  | enter stage => exact List.getElem?_set_ne h.symm
  | _ => rfl

namespace Publisher

variable (p : Publisher) {w : Nat}

/-- A stroke of a worker keeps the timers of the others. -/
theorem timer?_actBy (x : Stroke) {d : Desk} (hd : d.Counting) {thread : Nat} (h : thread ≠ w + 1) :
    (p.actBy w x d).2.Counting ∧ (p.actBy w x d).2.timer? thread = d.timer? thread := by
  obtain ⟨d', hact, hd', hstats⟩ := p.exists_act_eq x (hd.tally (·.turnTo (w + 1)))
  obtain ⟨s, hs⟩ := Option.isSome_iff_exists.mp hd.stats
  rw [actBy, hact]
  refine ⟨hd', ?_⟩
  rw [Desk.timer?, Desk.timer?, hstats, Desk.tally, hs]
  exact x.timers_change p (s.turnTo (w + 1)) h

/-- **While a worker makes no stroke, its timer stays as it is**, whatever the others do. -/
theorem timer?_runStrokes {c : Crew (Task Stroke (Except Rejection Artifact)) (Except Rejection Artifact) Desk}
    (hc : c.shared.Counting) {schedule : List Nat} (hw : w ∉ schedule) :
    (c.runStrokes p.actBy schedule).shared.timer? (w + 1) = c.shared.timer? (w + 1) := by
  refine (Crew.runStrokes_keeps (P := fun d : Desk => d.Counting ∧ d.timer? (w + 1) = c.shared.timer? (w + 1)) ?_
    ⟨hc, rfl⟩).2
  rintro v hv x d ⟨hd, htimer⟩
  have hne : w + 1 ≠ v + 1 := fun heq => hw (Nat.succ.inj heq ▸ hv)
  obtain ⟨hd', hkept⟩ := p.timer?_actBy x hd hne
  exact ⟨hd', hkept.trans htimer⟩

end Publisher

/-! ## Sequences of calls -/

/-- A call of a publisher, with the order in which the workers of a crew make their steps. -/
inductive Call where
  | publish (u : CompiledUnit)
  /-- Each unit is published at one go. -/
  | publishAll (schedule : List Nat) (units : List CompiledUnit)
  /-- Each stroke is a step. -/
  | publishAllStrokes (schedule : List Nat) (units : List CompiledUnit)

namespace Publisher

/-- The crew that is to publish the units stroke by stroke. -/
def strokeCrew (p : Publisher) (units : List CompiledUnit) (d : Desk) :
    Crew (Task Stroke (Except Rejection Artifact)) (Except Rejection Artifact) Desk :=
  let size := p.numWorkers units.length
  Crew.start size (units.map p.task) (d.tally (·.staffed size))

/-- Publishes units with a crew, as `publishAllBy` does, but stroke by stroke. -/
def publishAllStrokes (p : Publisher) (schedule : List Nat) (units : List CompiledUnit) :
    Work (List (Except Rejection Artifact)) := do
  if units.isEmpty then
    Work.logged p.log .warning "publish_all called with no units"
    return []
  let done := (p.strokeCrew units (← get)).runStrokes p.actBy schedule
  set (done.shared.tally (·.staffed 0))
  ExceptT.mk (pure done.results)

/-- The work of a call, which gives its results. -/
def call (p : Publisher) : Call → Work (List (Except Rejection Artifact))
  | .publish u => do return [← p.publish u]
  | .publishAll schedule units => p.publishAllBy schedule units
  | .publishAllStrokes schedule units => p.publishAllStrokes schedule units

/-- A call that is begun at the desk `d` returns: all workers leave. -/
def Returns (p : Publisher) (d : Desk) : Call → Prop
  | .publish _ => True
  | .publishAll schedule units =>
    units ≠ [] → ∀ x ∈ ((p.crew units d).run p.job schedule).workers, x = .exited
  | .publishAllStrokes schedule units =>
    units ≠ [] → ∀ x ∈ ((p.strokeCrew units d).runStrokes p.actBy schedule).workers, x = .exited

/-- Calls one after the other, which give all their results. -/
def session (p : Publisher) : List Call → Work (List (Except Rejection Artifact))
  | [] => pure []
  | c :: calls => do
    let first ← p.call c
    let rest ← p.session calls
    return first ++ rest

/-- All calls return. -/
def AllReturn (p : Publisher) : Desk → List Call → Prop
  | _, [] => True
  | d, c :: calls => p.Returns d c ∧ p.AllReturn ((p.call c).leaves d) calls

end Publisher

/-- The work has results, and each counter grows by what there is to count in them. -/
def Work.Counted (x : Work (List (Except Rejection Artifact))) (d : Desk) : Prop :=
  ∃ results d', x.run d = (.ok results, d') ∧ d'.Counting ∧
    ∀ k : Counter, k.reading d' = k.reading d + (results.map k.count).sum

namespace Publisher

variable {p : Publisher} {d : Desk}

/-- What is the same for every counter is said once. -/
theorem exists_run_eq {α β : Type} {work : α → Desk → Except Fault β × Desk} {result : α → β} {due : Counter → α → Nat}
    (hwork : ∀ k, Accountable work Desk.Counting result (Counter.reading k) (due k)) (job : α) (hd : d.Counting) :
    ∃ d', work job d = (.ok (result job), d') ∧ d'.Counting ∧
      ∀ k : Counter, k.reading d' = k.reading d + due k job := by
  obtain ⟨d', hdone, hd', -⟩ := hwork .unitsOk job d hd
  refine ⟨d', hdone, hd', fun k => ?_⟩
  obtain ⟨d'', hdone', -, hadds⟩ := hwork k job d hd
  cases hdone.symm.trans hdone'
  exact hadds

/-- Nobody is called upon when there is nothing to do. -/
theorem counted_idle (p : Publisher) (hd : d.Counting) (message : String) :
    Work.Counted (do Work.logged p.log .warning message; return []) d := by
  obtain ⟨d', hlogged, hd', hread⟩ := exists_run_eq p.accountable_act (.log .warning (by decide) message) hd
  refine ⟨[], d', ?_, hd', hread⟩
  rw [Work.run_bind]
  simp only [act, Stroke.work] at hlogged
  rw [hlogged]
  rfl

/-- Nothing is counted when a crew gets its timers and when it gives them back. -/
theorem counted_crew {x : Work (List (Except Rejection Artifact))} {results : List (Except Rejection Artifact)}
    {shared : Desk} (size : Nat) (hrun : x.run d = (.ok results, shared.tally (·.staffed 0)))
    (hshared : shared.Counting)
    (hread : ∀ k : Counter, k.reading shared = k.reading (d.tally (·.staffed size)) + (results.map k.count).sum) :
    x.Counted d := by
  refine ⟨results, _, hrun, hshared.tally _, fun k => ?_⟩
  rw [k.reading_tally (k.read_staffed 0), hread, k.reading_tally (k.read_staffed size)]

/-- **Each counter grows by what there is to count in the results of a call.** -/
theorem counted_call (hd : d.Counting) {c : Call} (hret : p.Returns d c) : (p.call c).Counted d := by
  cases c with
  | publish u =>
    obtain ⟨d', hdone, hd', hread⟩ := exists_run_eq p.accountable_publish u hd
    refine ⟨[(p.task u).result], d', ?_, hd', fun k => by simpa using hread k⟩
    rw [call, Work.run_bind, hdone]
    rfl
  | publishAll schedule units =>
    cases units with
    | nil => exact p.counted_idle hd _
    | cons u us =>
      have hdone := fun k => Crew.run_done (p.accountable_job k) (p.numWorkers_pos _) (hd.tally _) (hret (by simp))
      obtain ⟨hresults, hshared, -⟩ := hdone .unitsOk
      refine counted_crew (p.numWorkers (us.length + 1)) (Prod.ext hresults rfl) hshared fun k => ?_
      rw [List.map_map]
      exact (hdone k).2.2
  | publishAllStrokes schedule units =>
    cases units with
    | nil => exact p.counted_idle hd _
    | cons u us =>
      have hdone := fun k =>
        Crew.runStrokes_done (p.accountable_actBy k) (p.numWorkers_pos _) (hd.tally _) (hret (by simp))
      obtain ⟨hresults, hshared, -⟩ := hdone .unitsOk
      refine counted_crew (p.numWorkers (us.length + 1)) (Prod.ext hresults rfl) hshared fun k => ?_
      have hdue : ((u :: us).map p.task).map (Task.due k.cost) =
          (((u :: us).map p.task).map Task.result).map k.count := by
        simp only [List.map_map]
        exact List.map_congr_left fun v _ => p.due_task v k
      rw [← hdue]
      exact (hdone k).2.2

/-- The same for calls one after the other. -/
theorem counted_session (hd : d.Counting) {calls : List Call} (hret : p.AllReturn d calls) :
    (p.session calls).Counted d := by
  induction calls generalizing d with
  | nil => exact ⟨[], d, rfl, hd, fun k => rfl⟩
  | cons c calls ih =>
    obtain ⟨hc, hcalls⟩ := hret
    obtain ⟨first, d₁, hfirst, hd₁, hread₁⟩ := counted_call hd hc
    rw [Work.leaves, hfirst] at hcalls
    obtain ⟨rest, d₂, hrest, hd₂, hread₂⟩ := ih hd₁ hcalls
    refine ⟨first ++ rest, d₂, ?_, hd₂, fun k => ?_⟩
    · rw [session, Work.run_bind, hfirst]
      simp only [Work.run_bind, hrest]
      rfl
    · rw [hread₂, hread₁, List.map_append, List.sum_append, Nat.add_assoc]

end Publisher

/-! ## What has been counted -/

namespace Counter

/-- How many results are of a kind. -/
theorem sum_map_kind (kind : Except Rejection Artifact → Bool) (results : List (Except Rejection Artifact)) :
    (results.map fun r => if kind r then 1 else 0).sum = results.countP kind := by
  induction results with
  | nil => rfl
  | cons r results ih =>
    rw [List.map_cons, List.sum_cons, ih, List.countP_cons]
    omega

/-- What is counted in the tables, where there is one. -/
theorem sum_map_table? (f : HintTable → Nat) (results : List (Except Rejection Artifact)) :
    (results.map fun r => ((table? r).map f).getD 0).sum = ((results.filterMap table?).map f).sum := by
  induction results with
  | nil => rfl
  | cons r results ih =>
    rw [List.map_cons, List.sum_cons, ih, List.filterMap_cons]
    cases table? r <;> simp

end Counter

namespace Publisher

/-- **The statistics agree with the results.** However many workers there are and however their strokes are mixed, when
all calls have returned, the units counted as published and as refused are as many as the results of these kinds, and
the hints and entries counted are those of the tables in the results. -/
theorem stats_agree (p : Publisher) (path : String) (d : Desk) (hstats : d.stats = some (.new path))
    (hdumping : d.dumping = .unread none ∨ d.dumping = .off) (calls : List Call) (hret : p.AllReturn d calls) :
    ∃ results s, (p.session calls).answer d = .ok results ∧ ((p.session calls).leaves d).stats = some s ∧
      s.unitsOk = results.countP Except.isOk ∧ s.unitsErr = results.countP (!·.isOk) ∧
      s.hints = ((results.filterMap table?).map HintTable.numHints).sum ∧
      s.entries = ((results.filterMap table?).map HintTable.numEntries).sum := by
  obtain ⟨results, d', hrun, hd', hread⟩ := counted_session ⟨by rw [hstats]; rfl, hdumping⟩ hret
  obtain ⟨s, hs⟩ := Option.isSome_iff_exists.mp hd'.stats
  have hcount : ∀ k : Counter, k.read s = (results.map k.count).sum := by
    intro k
    have hk := hread k
    rw [Counter.reading, Counter.reading, hs, hstats, Option.map_some, Option.map_some, Option.getD_some,
      Option.getD_some, show k.read (.new path) = 0 by cases k <;> rfl, Nat.zero_add] at hk
    exact hk
  refine ⟨results, s, by rw [Work.answer, hrun], by rw [Work.leaves, hrun, hs], ?_, ?_, ?_, ?_⟩
  · exact (hcount .unitsOk).trans (Counter.sum_map_kind _ results)
  · exact (hcount .unitsErr).trans (Counter.sum_map_kind _ results)
  · exact (hcount .hints).trans (Counter.sum_map_table? _ results)
  · exact (hcount .entries).trans (Counter.sum_map_table? _ results)

/-- A unit that branches to a block that does not exist. Then three units, by two workers who make strokes in turn, and
by two workers who publish at one go; and none at all. -/
def mixedCalls : List Call :=
  [.publish ⟨"strays", .e0, [[.br 1]], by decide⟩, .publishAllStrokes (List.replicate 21 [0, 1]).flatten threeUnits,
    .publishAll [0, 1, 1, 1, 1, 0, 1, 1, 1, 0, 0] threeUnits, .publishAllStrokes [] []]

/-- Four units are published, with two hints, and three are refused. -/
theorem mixedCalls_stats_agree : quietPair.AllReturn plainDesk mixedCalls ∧
    (((quietPair.session mixedCalls).leaves plainDesk).stats.map fun s => [s.unitsOk, s.unitsErr, s.hints, s.entries]) =
      some [4, 3, 2, 2] ∧
    ∃ results s, (quietPair.session mixedCalls).answer plainDesk = .ok results ∧
      ((quietPair.session mixedCalls).leaves plainDesk).stats = some s ∧
      s.unitsOk = results.countP Except.isOk ∧ s.unitsErr = results.countP (!·.isOk) ∧
      s.hints = ((results.filterMap table?).map HintTable.numHints).sum ∧
      s.entries = ((results.filterMap table?).map HintTable.numEntries).sum := by
  have hret : quietPair.AllReturn plainDesk mixedCalls := by
    refine ⟨trivial, fun _ => ?_, fun _ => ?_, fun h => absurd rfl h, trivial⟩
    · decide +kernel
    · decide +kernel
  exact ⟨hret, by decide +kernel, stats_agree quietPair "-" plainDesk rfl (Or.inl rfl) mixedCalls hret⟩

end Publisher

end ChillHints
