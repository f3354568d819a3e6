import ChillHints.Fault

/-!
# Crews

A crew of workers takes jobs from the front of a queue. Each worker takes a job, does it, and puts the result into
the slot of the job; it leaves when the queue is empty. A job may break off, and its worker with it. The steps of
the workers can be mixed in any way: a schedule says who makes the next step.
-/

namespace ChillHints

/-- What a worker is about to do. -/
inductive Worker (α β : Type) where
  /-- To take a job. -/
  | ready
  /-- To do job number `slot`. -/
  | holding (slot : Nat) (job : α)
  /-- To put a result into its slot. -/
  | finished (slot : Nat) (result : β)
  /-- Nothing, the queue was empty. -/
  | exited
  /-- Nothing, its job broke off. -/
  | crashed
deriving DecidableEq, Repr

namespace Worker

variable {α β : Type}

def isCrashed : Worker α β → Bool
  | crashed => true
  | _ => false

end Worker

/-- Workers, the jobs not taken, the results so far, and what the jobs share. -/
structure Crew (α β σ : Type) where
  queue : List (Nat × α)
  workers : List (Worker α β)
  slots : List (Option β)
  shared : σ

namespace Crew

variable {α β σ : Type}

/-- A crew of `size` that is to do `jobs`. -/
def start (size : Nat) (jobs : List α) (shared : σ) : Crew α β σ :=
  ⟨jobs.zipIdx.map fun (job, i) => (i, job), List.replicate size .ready, List.replicate jobs.length none, shared⟩

/-- The next step of worker number `w`, where `work` says how each worker does a job. -/
def step (work : Nat → α → σ → Except Fault β × σ) (c : Crew α β σ) (w : Nat) : Crew α β σ :=
  match c.workers[w]? with
  | some .ready =>
    match c.queue with
    | [] => { c with workers := c.workers.set w .exited }
    | (i, job) :: queue => { c with queue, workers := c.workers.set w (.holding i job) }
  | some (.holding i job) =>
    match work w job c.shared with
    | (.ok r, shared) => { c with shared, workers := c.workers.set w (.finished i r) }
    | (.error _, shared) => { c with shared, workers := c.workers.set w .crashed }
  | some (.finished i r) => { c with slots := c.slots.set i (some r), workers := c.workers.set w .ready }
  | some .exited => c
  | some .crashed => c
  | none => c

/-- Makes the steps of a schedule. -/
def run (work : Nat → α → σ → Except Fault β × σ) (schedule : List Nat) (c : Crew α β σ) : Crew α β σ :=
  schedule.foldl (step work) c

/-- The schedule in which each of `size` workers in turn makes all the steps it can when there are `jobs` jobs. -/
def inTurn (size jobs : Nat) : List Nat := (List.range size).flatMap fun w => List.replicate (3 * jobs + 1) w

/-- The results in the order of the jobs. A crew with a worker that broke off has none. -/
def results (c : Crew α β σ) : Except Fault (List β) :=
  if c.workers.any Worker.isCrashed then .error .workerFailed else .ok (c.slots.filterMap id)

end Crew

end ChillHints
