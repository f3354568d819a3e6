import ChillHints.Publish.Crew
import Mathlib.Algebra.GroupWithZero.Nat
import Mathlib.Data.List.Perm.Basic
import Mathlib.Data.List.Range

/-!
# A crew loses no job

However the steps of the workers are mixed, a step is one of five (`Step`): a worker takes the job at the front of the
queue, it leaves because there is none, its job is done or breaks off, or it puts the result into its slot. Each of
them moves the number of at most one job, from the queue to a hand or from a hand to a slot, so every number stays in
exactly one place (`whole`).

If no job breaks off, and the result of a job is the same whoever does it and whatever the jobs before it have left
behind, then also all that is in a hand or a slot belongs there (`Orderly`). When everybody has left, the queue is empty
and so are the hands. Then the results are what comes of the jobs, in their order (`Orderly.exists_results`).
-/

namespace ChillHints

namespace Worker

variable {α β : Type}

/-- The number of the job that a worker has in hand, done or not. -/
def inHand? : Worker α β → Option Nat
  | holding slot _ => some slot
  | finished slot _ => some slot
  | ready => none
  | exited => none
  | crashed => none

/-- What the worker has in hand belongs to the number that it goes by, where `g` says what comes of the jobs, and the
worker has not broken off. -/
def Right (jobs : List α) (g : α → Except Fault β) : Worker α β → Prop
  | holding slot job => jobs[slot]? = some job
  | finished slot r => (jobs.map g)[slot]? = some (.ok r)
  | ready => True
  | exited => True
  | crashed => False

end Worker

namespace Crew

variable {α β σ : Type}

/-- The numbers of the jobs that nobody has taken. -/
def queued (c : Crew α β σ) : List Nat := c.queue.map Prod.fst

/-- The numbers of the jobs that a worker has in hand. -/
def inHand (c : Crew α β σ) : List Nat := c.workers.filterMap Worker.inHand?

/-- The numbers of the slots in which there is a result. -/
def filled (c : Crew α β σ) : List Nat :=
  (List.range c.slots.length).filter fun i => (c.slots[i]?.join).isSome

/-- The numbers of all jobs, wherever they are. -/
def whereabouts (c : Crew α β σ) : List Nat := c.queued ++ c.inHand ++ c.filled

/-! ## Steps -/

/-- What a worker can do. -/
inductive Step (work : Nat → α → σ → Except Fault β × σ) (c : Crew α β σ) : Crew α β σ → Prop
  | take {w i job queue} (hw : c.workers[w]? = some .ready) (hqueue : c.queue = (i, job) :: queue) :
      Step work c { c with queue, workers := c.workers.set w (.holding i job) }
  | leave {w} (hw : c.workers[w]? = some .ready) (hqueue : c.queue = []) :
      Step work c { c with workers := c.workers.set w .exited }
  | finish {w i job r shared} (hw : c.workers[w]? = some (.holding i job))
      (hwork : work w job c.shared = (.ok r, shared)) :
      Step work c { c with shared, workers := c.workers.set w (.finished i r) }
  | crash {w i job f shared} (hw : c.workers[w]? = some (.holding i job))
      (hwork : work w job c.shared = (.error f, shared)) :
      Step work c { c with shared, workers := c.workers.set w .crashed }
  | deliver {w i r} (hw : c.workers[w]? = some (.finished i r)) :
      Step work c { c with slots := c.slots.set i (some r), workers := c.workers.set w .ready }

variable {work : Nat → α → σ → Except Fault β × σ} {c c' : Crew α β σ}

/-- Whoever is called upon, nothing happens or what a worker can do. -/
theorem step_eq_or_step (work : Nat → α → σ → Except Fault β × σ) (c : Crew α β σ) (w : Nat) :
    c.step work w = c ∨ Step work c (c.step work w) := by
  unfold step
  split
  · rename_i hw
    split
    · rename_i hqueue
      exact Or.inr (.leave hw hqueue)
    · rename_i hqueue
      exact Or.inr (.take hw hqueue)
  · rename_i hw
    split
    · rename_i hwork
      exact Or.inr (.finish hw hwork)
    · rename_i hwork
      exact Or.inr (.crash hw hwork)
  · rename_i hw
    exact Or.inr (.deliver hw)
  · exact Or.inl rfl
  · exact Or.inl rfl
  · exact Or.inl rfl

/-- **What every step keeps, every run keeps**, for whatever schedule. -/
theorem run_keeps {P : Crew α β σ → Prop} (hP : ∀ c c', P c → Step work c c' → P c') (h : P c) (schedule : List Nat) :
    P (c.run work schedule) := by
  induction schedule generalizing c with
  | nil => exact h
  | cons w schedule ih =>
    refine ih (c := c.step work w) ?_
    rcases step_eq_or_step work c w with heq | hstep
    · rw [heq]
      exact h
    · exact hP c _ h hstep

theorem Step.length_workers (h : Step work c c') : c'.workers.length = c.workers.length := by
  cases h <;> exact List.length_set

theorem length_workers_run (c : Crew α β σ) (schedule : List Nat) :
    (c.run work schedule).workers.length = c.workers.length :=
  run_keeps (P := fun c' => c'.workers.length = c.workers.length) (fun _ _ h hstep => hstep.length_workers.trans h) rfl
    schedule

/-- Nobody is lost. -/
theorem run_workers_ne_nil (work : Nat → α → σ → Except Fault β × σ) (h : c.workers ≠ []) (schedule : List Nat) :
    (c.run work schedule).workers ≠ [] := by
  rw [← List.length_pos_iff, length_workers_run, List.length_pos_iff]
  exact h

theorem start_workers_ne_nil {size : Nat} (hsize : 0 < size) (jobs : List α) (shared : σ) :
    (start size jobs shared : Crew α β σ).workers ≠ [] := by
  intro h
  have := congrArg List.length h
  rw [start, List.length_replicate, List.length_nil] at this
  omega

/-! ## Where the jobs are -/

/-- A worker goes on to something else, where `f` says what each of them weighs. -/
theorem sum_map_set {workers : List (Worker α β)} {w : Nat} {x : Worker α β} (hx : workers[w]? = some x)
    (y : Worker α β) (f : Worker α β → Nat) :
    ((workers.set w y).map f).sum + f x = (workers.map f).sum + f y := by
  induction workers generalizing w with
  | nil => cases hx
  | cons z zs ih =>
    cases w with
    | zero =>
      cases hx
      rw [List.set_cons_zero, List.map_cons, List.map_cons, List.sum_cons, List.sum_cons]
      omega
    | succ w =>
      have := ih hx
      rw [List.set_cons_succ, List.map_cons, List.map_cons, List.sum_cons, List.sum_cons]
      omega

/-- Its hand is emptied of what it had, and filled with what it has. -/
theorem count_inHand_set {workers : List (Worker α β)} {w : Nat} {x : Worker α β} (hx : workers[w]? = some x)
    (y : Worker α β) (i : Nat) :
    ((workers.set w y).filterMap Worker.inHand?).count i + x.inHand?.toList.count i =
      (workers.filterMap Worker.inHand?).count i + y.inHand?.toList.count i := by
  simp only [List.filterMap_eq_flatMap_toList, List.count_flatMap]
  exact sum_map_set hx y _

theorem count_filled (c : Crew α β σ) (i : Nat) : c.filled.count i = if c.slots[i]?.join.isSome then 1 else 0 := by
  have hnodup : c.filled.Nodup := List.nodup_range.filter _
  have hmem : i ∈ c.filled ↔ c.slots[i]?.join.isSome := by
    simp only [filled, List.mem_filter, List.mem_range, and_iff_right_iff_imp]
    intro h
    by_contra hle
    rw [List.getElem?_eq_none (Nat.le_of_not_lt hle)] at h
    cases h
  rw [hnodup.count]
  simp only [hmem]

theorem count_whereabouts (c : Crew α β σ) (i : Nat) :
    c.whereabouts.count i = c.queued.count i + c.inHand.count i + c.filled.count i := by
  rw [whereabouts, List.count_append, List.count_append]

/-- Every job has a slot, and its number is in exactly one place: in the queue, in one hand, or on a filled slot. -/
structure Whole (n : Nat) (c : Crew α β σ) : Prop where
  slots : c.slots.length = n
  places : c.whereabouts.Perm (List.range n)

theorem Whole.count_eq {n : Nat} (h : c.Whole n) (i : Nat) :
    c.queued.count i + c.inHand.count i + c.filled.count i = if i < n then 1 else 0 := by
  rw [← count_whereabouts, h.places.count_eq, List.count_range]

theorem whole_of_count {n : Nat} (hslots : c.slots.length = n)
    (h : ∀ i, c.queued.count i + c.inHand.count i + c.filled.count i = if i < n then 1 else 0) : c.Whole n := by
  refine ⟨hslots, List.perm_iff_count.2 fun i => ?_⟩
  rw [count_whereabouts, h, List.count_range]

theorem whole_start (size : Nat) (jobs : List α) (shared : σ) :
    (start size jobs shared : Crew α β σ).Whole jobs.length := by
  refine whole_of_count List.length_replicate fun i => ?_
  have hqueued : (start size jobs shared : Crew α β σ).queued = List.range jobs.length := by
    rw [queued, start, List.map_map, List.range_eq_range', ← List.zipIdx_map_snd]
    rfl
  have hinHand : (start size jobs shared : Crew α β σ).inHand = [] := by
    simp [inHand, start, Worker.inHand?]
  rw [hqueued, hinHand, count_filled, List.count_range, List.count_nil]
  have hslot : (start size jobs shared : Crew α β σ).slots[i]?.join = none := by
    simp only [start, List.getElem?_replicate]
    split <;> rfl
  rw [hslot]
  rfl

/-- What is in a hand has a slot, and that is empty. -/
theorem Whole.slot_of_inHand {n : Nat} (h : c.Whole n) {x : Worker α β} (hx : x ∈ c.workers) {i : Nat}
    (hi : x.inHand? = some i) : i < n ∧ c.slots[i]?.join = none := by
  have hcount := h.count_eq i
  have hhand : 0 < c.inHand.count i := List.count_pos_iff.2 (List.mem_filterMap.2 ⟨x, hx, hi⟩)
  rw [count_filled] at hcount
  have hlt : i < n := by
    by_contra hle
    rw [if_neg hle] at hcount
    omega
  refine ⟨hlt, ?_⟩
  rw [if_pos hlt] at hcount
  cases hslot : c.slots[i]?.join with
  | none => rfl
  | some r =>
    rw [hslot, Option.isSome_some, if_pos rfl] at hcount
    omega

/-- A worker goes on to something else. If what leaves its hand or the queue is what comes into its hand or onto a slot,
then no job is lost or doubled. -/
theorem Whole.move {n : Nat} (h : c.Whole n) {w : Nat} {x y : Worker α β} (hw : c.workers[w]? = some x)
    (hworkers : c'.workers = c.workers.set w y) (hslots : c'.slots.length = c.slots.length)
    (hmove : ∀ i, c'.queued.count i + y.inHand?.toList.count i + c'.filled.count i =
      c.queued.count i + x.inHand?.toList.count i + c.filled.count i) : c'.Whole n := by
  refine whole_of_count (hslots.trans h.slots) fun i => ?_
  have hcount := h.count_eq i
  have hhand := count_inHand_set hw y i
  have hmove := hmove i
  simp only [inHand, hworkers] at hcount ⊢
  omega

/-- **No step loses or doubles a job**, unless its worker breaks off. -/
theorem Whole.step {n : Nat} (h : c.Whole n) (hstep : Step work c c') (hcrash : .crashed ∉ c'.workers) :
    c'.Whole n := by
  cases hstep with
  | take hw hqueue =>
    refine h.move hw rfl rfl fun k => ?_
    simp only [queued, filled, hqueue, Worker.inHand?, List.map_cons, Option.toList_none, Option.toList_some,
      List.count_cons, List.count_nil]
    omega
  | leave hw hqueue => exact h.move hw rfl rfl fun k => rfl
  | finish hw hwork => exact h.move hw rfl rfl fun k => rfl
  | crash hw hwork => exact absurd (List.mem_set (List.getElem?_eq_some_iff.1 hw).1 _) hcrash
  | @deliver w i r hw =>
    refine h.move hw rfl List.length_set fun k => ?_
    obtain ⟨hlt, hempty⟩ := h.slot_of_inHand (List.mem_of_getElem? hw) rfl
    rw [count_filled, count_filled]
    by_cases hk : i = k
    · subst hk
      have hslot : (c.slots.set i (some r))[i]? = some (some r) := List.getElem?_set_self (h.slots.symm ▸ hlt)
      rw [hslot, hempty]
      simp [queued, Worker.inHand?]
    · simp [queued, Worker.inHand?, hk]

/-! ## What belongs where -/

/-- Every job is done in the end, and what comes of it is what `g` says, whoever does it and whatever the jobs before it
have left behind. -/
def Sure (work : Nat → α → σ → Except Fault β × σ) (jobs : List α) (g : α → Except Fault β) (I : σ → Prop) : Prop :=
  ∀ job ∈ jobs, (∃ r, g job = .ok r) ∧ ∀ w s, I s → (work w job s).1 = g job ∧ I (work w job s).2

/-- Every job is somewhere, and whatever is known of a job is in its place. -/
structure Orderly (jobs : List α) (g : α → Except Fault β) (I : σ → Prop) (c : Crew α β σ) : Prop where
  whole : c.Whole jobs.length
  shared : I c.shared
  queue : ∀ p ∈ c.queue, jobs[p.1]? = some p.2
  workers : ∀ x ∈ c.workers, x.Right jobs g
  slots : ∀ (i : Nat) r, c.slots[i]? = some (some r) → (jobs.map g)[i]? = some (.ok r)
  /-- Nobody has left while there was something to do. -/
  left : .exited ∈ c.workers → c.queue = []

variable {jobs : List α} {g : α → Except Fault β} {I : σ → Prop}

theorem orderly_start (size : Nat) (g : α → Except Fault β) {shared : σ} (hshared : I shared) :
    (start size jobs shared : Crew α β σ).Orderly jobs g I where
  whole := whole_start size jobs shared
  shared := hshared
  queue p hp := by
    obtain ⟨⟨job, i⟩, hi, rfl⟩ := List.mem_map.1 hp
    exact List.mem_zipIdx_iff_getElem?.1 hi
  workers x hx := by
    rw [List.eq_of_mem_replicate hx]
    trivial
  slots i r hr := by
    simp only [start, List.getElem?_replicate, Option.ite_none_right_eq_some] at hr
    cases hr.2
  left hx := by cases List.eq_of_mem_replicate hx

/-- A worker of the crew goes on to something that is right. -/
theorem Orderly.right_set (h : c.Orderly jobs g I) {y : Worker α β} (hy : y.Right jobs g) (w : Nat) :
    ∀ x ∈ c.workers.set w y, x.Right jobs g := by
  intro x hx
  rcases List.mem_or_eq_of_mem_set hx with hx | rfl
  · exact h.workers x hx
  · exact hy

theorem Orderly.left_set (h : c.Orderly jobs g I) {y : Worker α β} (hy : y ≠ .exited) {w : Nat}
    (hleft : .exited ∈ c.workers.set w y) : c.queue = [] := by
  rcases List.mem_or_eq_of_mem_set hleft with hleft | heq
  · exact h.left hleft
  · exact absurd heq.symm hy

/-- What comes of the job that a worker holds. -/
theorem Orderly.of_holding (hwork : Sure work jobs g I) (h : c.Orderly jobs g I) {w i : Nat} {job : α}
    (hw : c.workers[w]? = some (.holding i job)) : ∃ r, (work w job c.shared).1 = .ok r ∧
      (jobs.map g)[i]? = some (.ok r) ∧ I (work w job c.shared).2 := by
  have hjob : jobs[i]? = some job := h.workers _ (List.mem_of_getElem? hw)
  obtain ⟨⟨r, hr⟩, hdone⟩ := hwork job (List.mem_of_getElem? hjob)
  obtain ⟨hanswer, hI⟩ := hdone w c.shared h.shared
  refine ⟨r, hanswer.trans hr, ?_, hI⟩
  rw [List.getElem?_map, hjob, Option.map_some, hr]

/-- **Every step keeps the crew in order.** -/
theorem Orderly.step (hwork : Sure work jobs g I) (h : c.Orderly jobs g I) (hstep : Step work c c') :
    c'.Orderly jobs g I := by
  -- nobody breaks off, so no job is lost
  have hwhole : (∀ x ∈ c'.workers, x.Right jobs g) → c'.Whole jobs.length :=
    fun hright => h.whole.step hstep fun hcrash => hright _ hcrash
  cases hstep with
  | @take w i job queue hw hqueue =>
    have hright := h.right_set (y := .holding i job) (h.queue (i, job) (by simp [hqueue])) w
    refine ⟨hwhole hright, h.shared, fun p hp => h.queue p (by simp [hqueue, hp]), hright, h.slots, fun hleft => ?_⟩
    cases hqueue.symm.trans (h.left_set (by simp) hleft)
  | @leave w hw hqueue =>
    have hright := h.right_set (y := .exited) trivial w
    exact ⟨hwhole hright, h.shared, h.queue, hright, h.slots, fun _ => hqueue⟩
  | @finish w i job r shared hw hdone =>
    obtain ⟨r', hr', hplace, hI⟩ := h.of_holding hwork hw
    rw [hdone] at hr' hI
    cases hr'
    have hright := h.right_set (y := .finished i r) hplace w
    exact ⟨hwhole hright, hI, h.queue, hright, h.slots, h.left_set (by simp)⟩
  | @crash w i job e shared hw hdone =>
    obtain ⟨r, hr, -⟩ := h.of_holding hwork hw
    rw [hdone] at hr
    cases hr
  | @deliver w i r hw =>
    have hr : (jobs.map g)[i]? = some (.ok r) := h.workers _ (List.mem_of_getElem? hw)
    have hright := h.right_set (y := .ready) trivial w
    refine ⟨hwhole hright, h.shared, h.queue, hright, fun k x hx => ?_, h.left_set (by simp)⟩
    rw [List.getElem?_set] at hx
    split at hx
    · subst k
      split at hx
      · cases hx
        exact hr
      · cases hx
    · exact h.slots k x hx

theorem Orderly.run (hwork : Sure work jobs g I) (h : c.Orderly jobs g I) (schedule : List Nat) :
    (c.run work schedule).Orderly jobs g I :=
  run_keeps (fun _ _ h hstep => h.step hwork hstep) h schedule

/-- When everybody has left, there is nothing in the queue. -/
theorem Orderly.queue_eq_nil (h : c.Orderly jobs g I) (hsize : c.workers ≠ []) (hleft : ∀ x ∈ c.workers, x = .exited) :
    c.queue = [] := by
  obtain ⟨x, hx⟩ := List.exists_mem_of_ne_nil _ hsize
  exact h.left (hleft x hx ▸ hx)

/-- When everybody has left, all slots are filled. -/
theorem Orderly.slots_eq (h : c.Orderly jobs g I) (hsize : c.workers ≠ []) (hleft : ∀ x ∈ c.workers, x = .exited) :
    c.slots.map (Option.map .ok) = (jobs.map g).map some := by
  have hqueued : c.queued = [] := by rw [queued, h.queue_eq_nil hsize hleft, List.map_nil]
  have hinHand : c.inHand = [] := List.filterMap_eq_nil_iff.2 fun x hx => by rw [hleft x hx]; rfl
  apply List.ext_getElem?
  intro i
  have hcount := h.whole.count_eq i
  rw [hqueued, hinHand, count_filled, List.count_nil, Nat.zero_add] at hcount
  rw [List.getElem?_map, List.getElem?_map]
  by_cases hi : i < jobs.length
  · have hslot : c.slots[i]?.join.isSome := by
      by_contra hnone
      rw [if_neg hnone, if_pos hi] at hcount
      cases hcount
    obtain ⟨r, hr⟩ := Option.isSome_iff_exists.1 hslot
    have hr := Option.join_eq_some_iff.1 hr
    rw [hr, h.slots i r hr]
    rfl
  · have hslots := h.whole.slots
    rw [List.getElem?_eq_none (by omega), List.getElem?_eq_none (by rw [List.length_map]; omega)]
    rfl

/-- **When everybody has left, the results are what comes of the jobs, in their order.** -/
theorem Orderly.exists_results (h : c.Orderly jobs g I) (hsize : c.workers ≠ [])
    (hleft : ∀ x ∈ c.workers, x = .exited) : ∃ rs, c.results = .ok rs ∧ rs.map .ok = jobs.map g := by
  have hnone : c.workers.any Worker.isCrashed = false := by
    refine List.any_eq_false.2 fun x hx => ?_
    rw [hleft x hx]
    simp [Worker.isCrashed]
  refine ⟨c.slots.filterMap id, by rw [results, hnone]; rfl, ?_⟩
  calc (c.slots.filterMap id).map .ok
      = (c.slots.map (Option.map .ok)).filterMap id := by rw [List.map_filterMap, List.filterMap_map]; rfl
    _ = ((jobs.map g).map some).filterMap id := by rw [h.slots_eq hsize hleft]
    _ = jobs.map g := by rw [List.filterMap_map]; exact List.filterMap_some

/-- The same, where `result` says what comes of the jobs. -/
theorem Orderly.results_eq {result : α → β} (h : c.Orderly jobs (fun job => .ok (result job)) I)
    (hsize : c.workers ≠ []) (hleft : ∀ x ∈ c.workers, x = .exited) : c.results = .ok (jobs.map result) := by
  obtain ⟨rs, hrs, hmap⟩ := h.exists_results hsize hleft
  have heq : rs.map Except.ok = (jobs.map result).map (Except.ok : β → Except Fault β) := by
    rw [hmap, List.map_map]
    rfl
  rw [hrs, List.map_injective_iff.mpr (fun _ _ => Except.ok.inj) heq]

end Crew

end ChillHints
