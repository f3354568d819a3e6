import ChillHints.Proofs.Crew

/-!
# What a crew still has to count

The jobs of a crew add to a counter that they share. What the counter reads, and what the jobs that are in the queue or
in a hand have still to add, are together the same after every step (`account`), however the steps are mixed. When
everybody has left, nothing is still to be added, so the counter has grown by what all jobs add.

A job need not be done at one go. A `Task` is a sequence of strokes, each of which changes what is shared, and between
two strokes of a worker the others can make strokes of their own (`stroke`).

* What is shared is changed by strokes only, so what every stroke keeps of it, every run keeps (`runStrokes_keeps`).
* A stroke moves its share from what is still to be added to the counter (`account_stroke`).
* To somebody who sees only what comes of the tasks, a stroke is no step at all, and every other step is a step of a
  crew (`shadow_stroke`). So what is known of the results of a crew is known of tasks as well.

Whether jobs are done at one go (`run_done`) or stroke by stroke (`runStrokes_done`), in the end both the results and
the counter are what the jobs make them.
-/

namespace ChillHints

variable {α β σ τ : Type}

/-- Where `I` holds, which is always kept, no job breaks off, and every job adds to the counter what is due from it. -/
def Accountable (work : α → σ → Except Fault β × σ) (I : σ → Prop) (result : α → β) (reading : σ → Nat)
    (due : α → Nat) : Prop :=
  ∀ job s, I s → ∃ s', work job s = (.ok (result job), s') ∧ I s' ∧ reading s' = reading s + due job

/-- What the counter does not see can be changed before a job is begun. -/
theorem Accountable.after {work : α → σ → Except Fault β × σ} {I : σ → Prop} {result : α → β} {reading : σ → Nat}
    {due : α → Nat} {f : σ → σ} (h : Accountable work I result reading due) (hI : ∀ s, I s → I (f s))
    (hread : ∀ s, reading (f s) = reading s) : Accountable (fun job s => work job (f s)) I result reading due := by
  intro job s hs
  obtain ⟨s', hdone, hI', hadds⟩ := h job (f s) (hI s hs)
  rw [hread] at hadds
  exact ⟨s', hdone, hI', hadds⟩

/-- What the job in hand has still to add. -/
def Worker.due (due : α → Nat) : Worker α β → Nat
  | holding _ job => due job
  | ready => 0
  | finished .. => 0
  | exited => 0
  | crashed => 0

namespace Crew

/-- What the jobs in the queue have still to add. -/
def queueDue (due : α → Nat) (c : Crew α β σ) : Nat := (c.queue.map fun (_, job) => due job).sum

/-- What the counter reads, and what is still to be added to it. -/
def account (reading : σ → Nat) (due : α → Nat) (c : Crew α β σ) : Nat :=
  reading c.shared + c.queueDue due + (c.workers.map (Worker.due due)).sum

variable {work : Nat → α → σ → Except Fault β × σ} {I : σ → Prop} {result : α → β} {reading : σ → Nat} {due : α → Nat}
  {c c' : Crew α β σ}

theorem account_start (reading : σ → Nat) (due : α → Nat) (size : Nat) (jobs : List α) (shared : σ) :
    (start size jobs shared : Crew α β σ).account reading due = reading shared + (jobs.map due).sum := by
  have hqueue : (start size jobs shared : Crew α β σ).queueDue due = (jobs.map due).sum := by
    calc (start size jobs shared : Crew α β σ).queueDue due
        = ((jobs.zipIdx.map Prod.fst).map due).sum := by rw [queueDue, start, List.map_map, List.map_map]; rfl
      _ = (jobs.map due).sum := by rw [List.zipIdx_map_fst]
  rw [account, hqueue]
  simp [start, Worker.due]

/-- When everybody has left, nothing is still to be added. -/
theorem account_left (reading : σ → Nat) (due : α → Nat) (hqueue : c.queue = [])
    (hleft : ∀ x ∈ c.workers, x = .exited) : c.account reading due = reading c.shared := by
  have hworkers : c.workers.map (Worker.due due) = c.workers.map fun _ => 0 :=
    List.map_congr_left fun x hx => by rw [hleft x hx]; rfl
  rw [account, queueDue, hqueue, hworkers]
  simp

/-- A worker goes on to something else. If what is still to be added goes from the queue to its hand or from its hand to
the counter, the account is kept. -/
theorem account_move {w : Nat} {x y : Worker α β} (hw : c.workers[w]? = some x)
    (hworkers : c'.workers = c.workers.set w y)
    (hmove : reading c'.shared + c'.queueDue due + y.due due = reading c.shared + c.queueDue due + x.due due) :
    c'.account reading due = c.account reading due := by
  have hsum := sum_map_set hw y (Worker.due due)
  rw [account, account, hworkers]
  omega

/-- **Every step keeps the account.** -/
theorem account_step (hwork : ∀ w, Accountable (work w) I result reading due) (hI : I c.shared)
    (hstep : Step work c c') : I c'.shared ∧ c'.account reading due = c.account reading due := by
  cases hstep with
  | take hw hqueue =>
    refine ⟨hI, account_move hw rfl ?_⟩
    simp only [queueDue, hqueue, List.map_cons, List.sum_cons, Worker.due]
    omega
  | leave hw hqueue => exact ⟨hI, account_move hw rfl rfl⟩
  | @finish w i job r shared hw hdone =>
    obtain ⟨s', hs', hI', hadds⟩ := hwork w job _ hI
    cases hdone.symm.trans hs'
    refine ⟨hI', account_move hw rfl ?_⟩
    simp only [queueDue, Worker.due, hadds]
    omega
  | @crash w i job e shared hw hdone =>
    obtain ⟨s', hs', -⟩ := hwork w job _ hI
    cases hdone.symm.trans hs'
  | deliver hw => exact ⟨hI, account_move hw rfl rfl⟩

/-- **Every run keeps the account.** -/
theorem account_run (hwork : ∀ w, Accountable (work w) I result reading due) (hI : I c.shared)
    (schedule : List Nat) : I (c.run work schedule).shared ∧
      (c.run work schedule).account reading due = c.account reading due := by
  refine run_keeps (P := fun c' => I c'.shared ∧ c'.account reading due = c.account reading due) ?_ ⟨hI, rfl⟩ schedule
  rintro c₁ c₂ ⟨hI₁, haccount⟩ hstep
  obtain ⟨hI₂, heq⟩ := account_step hwork hI₁ hstep
  exact ⟨hI₂, heq.trans haccount⟩

/-- **When everybody has left, the results and the counter are what the jobs make them**, if jobs are done at one go. -/
theorem run_done (hwork : ∀ w, Accountable (work w) I result reading due) {size : Nat} (hsize : 0 < size)
    {jobs : List α} {shared : σ} (hI : I shared) {schedule : List Nat}
    (hleft : ∀ x ∈ ((start size jobs shared).run work schedule).workers, x = .exited) :
    ((start size jobs shared).run work schedule).results = .ok (jobs.map result) ∧
      I ((start size jobs shared).run work schedule).shared ∧
      reading ((start size jobs shared).run work schedule).shared = reading shared + (jobs.map due).sum := by
  have hsure : Sure work jobs (fun job => .ok (result job)) I := by
    refine fun job _ => ⟨⟨_, rfl⟩, fun w s hs => ?_⟩
    obtain ⟨s', heq, hI', -⟩ := hwork w job s hs
    rw [heq]
    exact ⟨rfl, hI'⟩
  have horderly := Orderly.run hsure (orderly_start size _ hI) schedule
  have hne := run_workers_ne_nil work (start_workers_ne_nil hsize jobs shared) schedule
  obtain ⟨hshared, haccount⟩ := account_run (c := start size jobs shared) hwork hI schedule
  refine ⟨horderly.results_eq hne hleft, hshared, ?_⟩
  rw [← account_left reading due (horderly.queue_eq_nil hne hleft) hleft, haccount, account_start]

end Crew

/-! ## Stroke by stroke -/

/-- Strokes that are to be made one after the other, and what comes of them. -/
structure Task (τ β : Type) where
  strokes : List τ
  result : β
deriving DecidableEq

namespace Task

/-- What the strokes have still to add. -/
def due (cost : τ → Nat) (task : Task τ β) : Nat := (task.strokes.map cost).sum

/-- Makes strokes at one go, until one breaks off. -/
def make (act : τ → σ → Except Fault Unit × σ) : List τ → σ → Except Fault Unit × σ
  | [], s => (.ok (), s)
  | x :: rest, s =>
    match act x s with
    | (.ok (), s') => make act rest s'
    | (.error e, s') => (.error e, s')

/-- A task as a job that is done at one go. -/
def work (act : τ → σ → Except Fault Unit × σ) (task : Task τ β) (s : σ) : Except Fault β × σ :=
  match make act task.strokes s with
  | (.ok (), s') => (.ok task.result, s')
  | (.error e, s') => (.error e, s')

variable {act : τ → σ → Except Fault Unit × σ} {I : σ → Prop} {reading : σ → Nat} {cost : τ → Nat}

theorem exists_make_eq (hact : Accountable act I (fun _ => ()) reading cost) (strokes : List τ) {s : σ} (hs : I s) :
    ∃ s', make act strokes s = (.ok (), s') ∧ I s' ∧ reading s' = reading s + (strokes.map cost).sum := by
  induction strokes generalizing s with
  | nil => exact ⟨s, rfl, hs, by simp⟩
  | cons x rest ih =>
    obtain ⟨s₁, hx, hI₁, hadds₁⟩ := hact x s hs
    obtain ⟨s₂, hrest, hI₂, hadds₂⟩ := ih hI₁
    refine ⟨s₂, by simp only [make, hx, hrest], hI₂, ?_⟩
    rw [List.map_cons, List.sum_cons]
    omega

/-- What can be said of strokes can be said of tasks. -/
theorem accountable_work (hact : Accountable act I (fun _ => ()) reading cost) :
    Accountable (work act : Task τ β → σ → Except Fault β × σ) I result reading (due cost) := by
  intro task s hs
  obtain ⟨s', hmake, hI, hadds⟩ := exists_make_eq hact task.strokes hs
  exact ⟨s', by simp only [work, hmake], hI, hadds⟩

end Task

/-- What is seen of a worker if only the results of tasks can be seen. -/
def Worker.shadow : Worker (Task τ β) β → Worker β β
  | holding slot task => holding slot task.result
  | finished slot r => finished slot r
  | ready => ready
  | exited => exited
  | crashed => crashed

namespace Crew

/-- The next step of worker number `w`, where the next stroke of the task in hand is a step of its own. -/
def stroke (act : Nat → τ → σ → Except Fault Unit × σ) (c : Crew (Task τ β) β σ) (w : Nat) : Crew (Task τ β) β σ :=
  match c.workers[w]? with
  | some (.holding i ⟨x :: rest, r⟩) =>
    match act w x c.shared with
    | (.ok (), shared) => { c with shared, workers := c.workers.set w (.holding i ⟨rest, r⟩) }
    | (.error _, shared) => { c with shared, workers := c.workers.set w .crashed }
  | _ => c.step (fun w => Task.work (act w)) w

/-- Makes the steps of a schedule, stroke by stroke. -/
def runStrokes (act : Nat → τ → σ → Except Fault Unit × σ) (schedule : List Nat) (c : Crew (Task τ β) β σ) :
    Crew (Task τ β) β σ :=
  schedule.foldl (stroke act) c

/-- What is seen of a crew if only the results of tasks can be seen. -/
def shadow (c : Crew (Task τ β) β σ) : Crew β β Unit :=
  ⟨c.queue.map fun (i, task) => (i, task.result), c.workers.map Worker.shadow, c.slots, ()⟩

/-- The job of handing over a result that is known. -/
def handOver (_ : Nat) (r : β) (_ : Unit) : Except Fault β × Unit := (.ok r, ())

variable {act : Nat → τ → σ → Except Fault Unit × σ} {I : σ → Prop} {reading : σ → Nat} {cost : τ → Nat}
  {c : Crew (Task τ β) β σ}

/-- What is shared is changed by strokes only, each the stroke of the worker that is called upon. -/
theorem shared_stroke (act : Nat → τ → σ → Except Fault Unit × σ) (c : Crew (Task τ β) β σ) (w : Nat) :
    (c.stroke act w).shared = c.shared ∨ ∃ x, (c.stroke act w).shared = (act w x c.shared).2 := by
  unfold stroke
  split
  · rename_i i x rest r hw
    refine Or.inr ⟨x, ?_⟩
    cases act w x c.shared with
    | mk answer shared => cases answer <;> rfl
  · rename_i hstrokes
    refine Or.inl ?_
    unfold step
    split
    · split <;> rfl
    · -- the task in hand has no strokes left, or the next one would be made
      rename_i i task hw
      obtain ⟨strokes, r⟩ := task
      cases strokes with
      | nil => rfl
      | cons x rest => exact absurd hw (hstrokes i x rest r)
    · rfl
    · rfl
    · rfl
    · rfl

/-- **What every stroke keeps of what is shared, a run keeps.** Only the workers in the schedule make strokes. -/
theorem runStrokes_keeps {P : σ → Prop} {schedule : List Nat} (hP : ∀ w ∈ schedule, ∀ x s, P s → P (act w x s).2)
    (h : P c.shared) : P (c.runStrokes act schedule).shared := by
  induction schedule generalizing c with
  | nil => exact h
  | cons w schedule ih =>
    obtain ⟨hw, hrest⟩ := List.forall_mem_cons.mp hP
    refine ih (c := c.stroke act w) hrest ?_
    rcases shared_stroke act c w with heq | ⟨x, heq⟩
    · rw [heq]
      exact h
    · rw [heq]
      exact hw x _ h

/-- **Every stroke keeps the account.** -/
theorem account_stroke (hact : ∀ w, Accountable (act w) I (fun _ => ()) reading cost) (hI : I c.shared) (w : Nat) :
    I (c.stroke act w).shared ∧
      (c.stroke act w).account reading (Task.due cost) = c.account reading (Task.due cost) := by
  unfold stroke
  split
  · rename_i i x rest r hw
    obtain ⟨s', hx, hI', hadds⟩ := hact w x _ hI
    simp only [hx]
    refine ⟨hI', account_move hw rfl ?_⟩
    simp only [queueDue, Worker.due, Task.due, List.map_cons, List.sum_cons, hadds]
    omega
  · rcases step_eq_or_step (fun w => Task.work (act w)) c w with heq | hstep
    · rw [heq]
      exact ⟨hI, rfl⟩
    · exact account_step (fun w => Task.accountable_work (hact w)) hI hstep

/-- What is seen of a step. -/
theorem shadow_step (hact : ∀ w, Accountable (act w) I (fun _ => ()) reading cost) (hI : I c.shared) (w : Nat) :
    (c.step (fun w => Task.work (act w)) w).shadow = c.shadow.step handOver w := by
  have hw : c.shadow.workers[w]? = c.workers[w]?.map Worker.shadow := List.getElem?_map
  unfold step
  rw [hw]
  cases c.workers[w]? with
  | none => rfl
  | some x =>
    cases x with
    | ready => cases hqueue : c.queue <;> simp [shadow, hqueue, Worker.shadow, List.map_set]
    | holding i task =>
      obtain ⟨s', hdone, -⟩ := Task.accountable_work (hact w) task _ hI
      simp [shadow, Worker.shadow, handOver, List.map_set, hdone]
    | finished i r => simp [shadow, Worker.shadow, List.map_set]
    | exited => rfl
    | crashed => rfl

/-- **A stroke is not seen; any other step is a step.** -/
theorem shadow_stroke (hact : ∀ w, Accountable (act w) I (fun _ => ()) reading cost) (hI : I c.shared) (w : Nat) :
    (c.stroke act w).shadow = c.shadow ∨ (c.stroke act w).shadow = c.shadow.step handOver w := by
  unfold stroke
  split
  · rename_i i x rest r hw
    obtain ⟨s', hx, -⟩ := hact w x _ hI
    refine Or.inl ?_
    -- the result of the task in hand is what it was
    have hsame : (c.workers.map Worker.shadow)[w]? = some (.holding i r) := by rw [List.getElem?_map, hw]; rfl
    obtain ⟨hlt, hget⟩ := List.getElem?_eq_some_iff.mp hsame
    simp only [hx, shadow, List.map_set, Worker.shadow]
    rw [← hget, List.set_getElem_self]
  · exact Or.inr (shadow_step hact hI w)

/-- **A run stroke by stroke is a run of what is seen.** It keeps the account. -/
theorem runStrokes_spec (hact : ∀ w, Accountable (act w) I (fun _ => ()) reading cost) (hI : I c.shared)
    (schedule : List Nat) : (∃ steps, (c.runStrokes act schedule).shadow = c.shadow.run handOver steps) ∧
      I (c.runStrokes act schedule).shared ∧
      (c.runStrokes act schedule).account reading (Task.due cost) = c.account reading (Task.due cost) := by
  induction schedule generalizing c with
  | nil => exact ⟨⟨[], rfl⟩, hI, rfl⟩
  | cons w schedule ih =>
    obtain ⟨hI', haccount⟩ := account_stroke hact hI w
    obtain ⟨⟨steps, hsteps⟩, hI'', haccount'⟩ := ih hI'
    refine ⟨?_, hI'', haccount'.trans haccount⟩
    rcases shadow_stroke hact hI w with heq | heq
    · exact ⟨steps, hsteps.trans (by rw [heq])⟩
    · exact ⟨w :: steps, hsteps.trans (by rw [heq]; rfl)⟩

theorem shadow_start (size : Nat) (tasks : List (Task τ β)) (shared : σ) :
    (start size tasks shared).shadow = start size (tasks.map Task.result) () := by
  simp [start, shadow, Worker.shadow, List.zipIdx_map]

/-- The results can be seen. -/
theorem results_shadow (c : Crew (Task τ β) β σ) : c.shadow.results = c.results := by
  have hcrashed : (fun x : Worker (Task τ β) β => x.shadow.isCrashed) = Worker.isCrashed := by
    funext x
    cases x <;> rfl
  have hany : c.shadow.workers.any Worker.isCrashed = c.workers.any Worker.isCrashed := by
    rw [shadow, List.any_map, Function.comp_def, hcrashed]
  rw [results, results, hany]
  rfl

/-- **When everybody has left, the results and the counter are what the tasks make them**, however the strokes are
mixed. -/
theorem runStrokes_done (hact : ∀ w, Accountable (act w) I (fun _ => ()) reading cost) {size : Nat} (hsize : 0 < size)
    {tasks : List (Task τ β)} {shared : σ} (hI : I shared) {schedule : List Nat}
    (hleft : ∀ x ∈ ((start size tasks shared).runStrokes act schedule).workers, x = .exited) :
    ((start size tasks shared).runStrokes act schedule).results = .ok (tasks.map Task.result) ∧
      I ((start size tasks shared).runStrokes act schedule).shared ∧
      reading ((start size tasks shared).runStrokes act schedule).shared =
        reading shared + (tasks.map (Task.due cost)).sum := by
  obtain ⟨⟨steps, hsteps⟩, hshared, haccount⟩ := runStrokes_spec (c := start size tasks shared) hact hI schedule
  rw [shadow_start] at hsteps
  have hsure : Sure handOver (tasks.map Task.result) .ok fun _ => True :=
    fun r _ => ⟨⟨r, rfl⟩, fun _ _ _ => ⟨rfl, trivial⟩⟩
  have horderly : ((start size tasks shared).runStrokes act schedule).shadow.Orderly (tasks.map Task.result) .ok
      fun _ => True := by
    rw [hsteps]
    exact (orderly_start size .ok trivial).run hsure steps
  have hne : ((start size tasks shared).runStrokes act schedule).shadow.workers ≠ [] := by
    rw [hsteps]
    exact run_workers_ne_nil handOver (start_workers_ne_nil hsize _ _) steps
  have hseen : ∀ x ∈ ((start size tasks shared).runStrokes act schedule).shadow.workers, x = .exited := by
    intro x hx
    obtain ⟨y, hy, rfl⟩ := List.mem_map.mp hx
    rw [hleft y hy]
    rfl
  have hqueue := List.map_eq_nil_iff.mp (horderly.queue_eq_nil hne hseen)
  refine ⟨?_, hshared, ?_⟩
  · have hresults : ((start size tasks shared).runStrokes act schedule).shadow.results =
        .ok ((tasks.map Task.result).map id) := horderly.results_eq hne hseen
    rw [← results_shadow, hresults, List.map_id]
  · rw [← account_left reading (Task.due cost) hqueue hleft, haccount, account_start]

end Crew

end ChillHints
