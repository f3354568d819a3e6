import ChillHints.Proofs.Crew
import ChillHints.Publish.Publisher

/-!
# A crew publishes what a publisher does alone

What comes of publishing a unit does not depend on the units published before it. They leave the desk changed, but of
what is on the desk only the setting of the dump can make the work break off, and it does so at the first unit or at
none (`Usable`). Otherwise the answer is the same at every desk (`Steady`): so it is for each thing that is done on the
way, and so it is for all of them one after the other.

Publishing is therefore work for a crew that is sure to be done, and by what is known of crews no unit is lost on the
way, and the answers are those that each unit gets when it is published alone (`publishAllBy_eq`).
-/

namespace ChillHints

/-! ## Desks at which a unit can be published -/

/-- There is one edition only, so it is the expected one. -/
theorem Edition.expect_eq_ok (e expected : Edition) : e.expect expected = .ok () := by
  cases e
  cases expected
  rfl

/-- The setting of the dump can be used, or is not given. -/
def Dumping.Usable (d : Dumping) : Prop := ∃ dump, (d.force .empty).1 = .ok dump

theorem Dumping.force_fst (d : Dumping) (o : Outbox) : (d.force o).1 = (d.force .empty).1 := by
  cases d with
  | unread setting =>
    cases setting with
    | none => rfl
    | some s =>
      simp only [force]
      cases Dump.ofSetting s <;> rfl
  | _ => rfl

/-- A dump that has been looked at once can be used from then on. -/
theorem Dumping.Usable.force {d : Dumping} (h : d.Usable) (o : Outbox) :
    (∃ dump, (d.force o).1 = .ok dump) ∧ (d.force o).2.1.Usable := by
  refine ⟨d.force_fst o ▸ h, ?_⟩
  cases d with
  | unread setting =>
    cases setting with
    | none => exact ⟨none, rfl⟩
    | some s =>
      obtain ⟨dump, hdump⟩ := h
      simp only [Dumping.force] at hdump ⊢
      cases hs : Dump.ofSetting s with
      | error e => rw [hs] at hdump; cases hdump
      | ok x => exact ⟨some x, rfl⟩
  | _ => exact h

/-- A message can be written if it has a level. -/
theorem Log.exists_write (log : Log) {level : LogLevel} (hlevel : level ≠ .disabled) (message : String) (o : Outbox) :
    ∃ o', log.write level message o = .ok o' := by
  obtain ⟨tag, htag⟩ : ∃ tag, level.tag? = some tag := by
    cases level with
    | disabled => exact absurd rfl hlevel
    | _ => exact ⟨_, rfl⟩
  simp only [write, htag]
  split
  · split <;> exact ⟨_, rfl⟩
  · exact ⟨o, rfl⟩

namespace Work

variable {α β : Type}

/-- What comes of work that is begun at the desk `d`. -/
def answer (x : Work α) (d : Desk) : Except Fault α := Prod.fst (x.run d : Except Fault α × Desk)

/-- The desk as the work leaves it. -/
def leaves (x : Work α) (d : Desk) : Desk := Prod.snd (x.run d : Except Fault α × Desk)

/-- Work that comes after other work is not begun if that breaks off. -/
theorem run_bind (x : Work α) (f : α → Work β) (d : Desk) :
    ((x >>= f).run d : Except Fault β × Desk) = match (x.run d : Except Fault α × Desk) with
      | (.ok a, d') => (f a).run d'
      | (.error e, d') => (.error e, d') := by
  simp only [bind, ExceptT.bind, ExceptT.mk, ExceptT.run, StateT.bind, ExceptT.bindCont]
  cases (x d : Except Fault α × Desk) with
  | mk result d' => cases result <;> rfl

theorem answer_bind (x : Work α) (f : α → Work β) (d : Desk) :
    (x >>= f).answer d = x.answer d >>= fun a => (f a).answer (x.leaves d) := by
  rw [answer, run_bind, answer, leaves]
  cases (x.run d : Except Fault α × Desk) with
  | mk result d' => cases result <;> rfl

theorem leaves_bind (x : Work α) (f : α → Work β) (d : Desk) :
    (x >>= f).leaves d = match x.answer d with
      | .ok a => (f a).leaves (x.leaves d)
      | .error _ => x.leaves d := by
  rw [leaves, run_bind, answer, leaves]
  cases (x.run d : Except Fault α × Desk) with
  | mk result d' => cases result <;> rfl

/-- Writing to the log breaks off only if the message cannot be written, and leaves the dump alone. -/
theorem run_logged (log : Log) (level : LogLevel) (message : String) (d : Desk) :
    (logged log level message).answer d = (log.write level message d.outbox).map (fun _ => ()) ∧
      ((logged log level message).leaves d).dumping = d.dumping := by
  -- the outbox is known when it is written to, so what is left to do depends on what comes of that
  have hset : ∀ r : Except Fault Outbox,
      (ExceptT.mk (pure r) >>= fun outbox => set { d with outbox } : Work Unit).answer d = r.map (fun _ => ()) ∧
        ((ExceptT.mk (pure r) >>= fun outbox => set { d with outbox } : Work Unit).leaves d).dumping = d.dumping := by
    intro r
    cases r <;> exact ⟨rfl, rfl⟩
  exact hset _

/-- Asking for the dump breaks off only if its setting cannot be used. -/
theorem run_dumpFor (p : DumpPhase) (d : Desk) :
    (dumpFor p).answer d = (d.dumping.force d.outbox).1.map (Option.filter (·.phases.contains p)) ∧
      ((dumpFor p).leaves d).dumping = (d.dumping.force d.outbox).2.1 := by
  have hset : ∀ (r : Except Fault (Option Dump)) (d' : Desk),
      (set d' >>= fun _ => ExceptT.mk (pure r) >>= fun dump => pure (dump.filter (·.phases.contains p)) :
        Work (Option Dump)).answer d = r.map (Option.filter (·.phases.contains p)) ∧
      (set d' >>= fun _ => ExceptT.mk (pure r) >>= fun dump => pure (dump.filter (·.phases.contains p)) :
        Work (Option Dump)).leaves d = d' := by
    intro r d'
    cases r <;> exact ⟨rfl, rfl⟩
  exact (hset _ _).imp_right (congrArg Desk.dumping)

/-- So does dumping a result. -/
theorem run_dump (p : DumpPhase) (name body : String) (d : Desk) :
    (dump p name body).answer d = (d.dumping.force d.outbox).1.map (fun _ => ()) ∧
      ((dump p name body).leaves d).dumping = (d.dumping.force d.outbox).2.1 := by
  obtain ⟨hanswer, hleaves⟩ := run_dumpFor p d
  rw [dump, answer_bind, leaves_bind, hanswer]
  cases (d.dumping.force d.outbox).1 with
  | error e => exact ⟨rfl, hleaves⟩
  | ok x =>
    simp only [Except.map]
    cases x.filter (·.phases.contains p) <;> exact ⟨rfl, hleaves⟩

/-! ## Answers that do not depend on the desk -/

/-- The answer is the same at every desk where the dump can be used, and the dump can be used afterwards. -/
def Steady (x : Work α) : Prop :=
  ∃ a, ∀ d, d.dumping.Usable → x.answer d = a ∧ (x.leaves d).dumping.Usable

theorem Steady.of_answer (a : Except Fault α) : Steady (ExceptT.mk (pure a)) := ⟨a, fun _ hd => ⟨rfl, hd⟩⟩

theorem Steady.pure (a : α) : Steady (pure a : Work α) := .of_answer (.ok a)

theorem Steady.bind {x : Work α} {f : α → Work β} (hx : Steady x) (hf : ∀ a, Steady (f a)) : Steady (x >>= f) := by
  obtain ⟨a, ha⟩ := hx
  cases a with
  | error e =>
    refine ⟨.error e, fun d hd => ?_⟩
    rw [answer_bind, leaves_bind, (ha d hd).1]
    exact ⟨rfl, (ha d hd).2⟩
  | ok v =>
    obtain ⟨b, hb⟩ := hf v
    refine ⟨b, fun d hd => ?_⟩
    rw [answer_bind, leaves_bind, (ha d hd).1]
    exact hb _ (ha d hd).2

theorem Steady.forM {xs : List β} {f : β → Work PUnit} (hf : ∀ x, Steady (f x)) : Steady (xs.forM f) := by
  induction xs with
  | nil => exact .pure _
  | cons x xs ih => exact .bind (hf x) fun _ => ih

theorem Steady.tally (f : Stats → Stats) : Steady (tally f) := ⟨.ok (), fun _ hd => ⟨rfl, hd⟩⟩

theorem Steady.logged (log : Log) {level : LogLevel} (hlevel : level ≠ .disabled) (message : String) :
    Steady (logged log level message) := by
  refine ⟨.ok (), fun d hd => ?_⟩
  obtain ⟨hanswer, hleaves⟩ := run_logged log level message d
  obtain ⟨o, ho⟩ := log.exists_write hlevel message d.outbox
  rw [hanswer, hleaves, ho]
  exact ⟨rfl, hd⟩

theorem Steady.dump (p : DumpPhase) (name body : String) : Steady (dump p name body) := by
  refine ⟨.ok (), fun d hd => ?_⟩
  obtain ⟨hanswer, hleaves⟩ := run_dump p name body d
  obtain ⟨⟨dump, hdump⟩, husable⟩ := hd.force d.outbox
  rw [hanswer, hleaves, hdump]
  exact ⟨rfl, husable⟩

end Work

namespace Publisher

open Work

variable (p : Publisher) (u : CompiledUnit)

theorem chill_steady : Steady (p.chill u) := by
  unfold chill
  split
  · exact .pure _
  · refine .bind (.dump ..) fun _ => .bind (.tally _) fun _ => ?_
    split
    · exact .pure _
    · exact .of_answer (.error _)
    · refine .bind (.tally _) fun _ => .bind (.of_answer _) fun uses => .bind (.dump ..) fun _ => ?_
      exact .bind (.tally _) fun _ => .bind (.dump ..) fun _ => .pure _

theorem announce_steady (t : HintTable) : Steady (p.announce u t) := by
  unfold announce
  refine .bind (.logged _ (by simp) _) fun _ => ?_
  split
  · exact .forM fun h => .logged _ (by simp) _
  · exact .pure _

/-- **What comes of publishing a unit does not depend on what was published before.** -/
theorem publish_steady : Steady (p.publish u) := by
  refine .bind (p.chill_steady u) fun chilled => .bind (.tally _) fun _ => ?_
  cases chilled with
  | ok t => exact .bind (.tally _) fun _ => .bind (p.announce_steady u t) fun _ => .pure _
  | error r => exact .bind (.tally _) fun _ => .bind (.logged _ (by simp) _) fun _ => .pure _

variable {p u} {d : Desk}

/-- A unit is published only at a desk where the dump can be used. -/
theorem usable_of_publish {r : Except Rejection Artifact} (h : (p.publish u).answer d = .ok r) : d.dumping.Usable := by
  -- the unit itself is the first thing to be dumped
  rw [publish, answer_bind] at h
  obtain ⟨chilled, hchilled, -⟩ := bind_eq_ok.1 h
  rw [chill, Edition.expect_eq_ok, answer_bind, (run_dump ..).1] at hchilled
  obtain ⟨_, hdump, -⟩ := bind_eq_ok.1 hchilled
  obtain ⟨dump, hdump, -⟩ := map_eq_ok.1 hdump
  exact ⟨dump, (Dumping.force_fst ..).symm.trans hdump⟩

/-- Publishing is work for a crew: however it goes on, it stays in order. -/
theorem orderly_crew {units : List CompiledUnit} (hok : ∀ u ∈ units, ∃ r, (p.publish u).answer d = .ok r)
    (schedule : List Nat) : ((p.crew units d).run p.job schedule).Orderly units (fun u => (p.publish u).answer d)
      (fun d => units ≠ [] → d.dumping.Usable) := by
  have hsure : Crew.Sure p.job units (fun u => (p.publish u).answer d) fun d => units ≠ [] → d.dumping.Usable := by
    intro u hu
    obtain ⟨r, hr⟩ := hok u hu
    obtain ⟨a, ha⟩ := p.publish_steady u
    refine ⟨⟨r, hr⟩, fun w d' hd' => ?_⟩
    -- whose turn it is makes no difference
    obtain ⟨hanswer, husable⟩ := ha (d'.tally (·.turnTo (w + 1))) (hd' (List.ne_nil_of_mem hu))
    exact ⟨hanswer.trans (ha d (usable_of_publish hr)).1.symm, fun _ => husable⟩
  refine Crew.Orderly.run hsure (Crew.orderly_start _ _ fun hne => ?_) schedule
  obtain ⟨u, hu⟩ := List.exists_mem_of_ne_nil units hne
  obtain ⟨r, hr⟩ := hok u hu
  have husable : d.dumping.Usable := usable_of_publish hr
  exact husable

theorem numWorkers_pos (p : Publisher) (n : Nat) : 0 < p.numWorkers n := Nat.le_max_left ..

theorem workers_ne_nil (units : List CompiledUnit) (schedule : List Nat) :
    ((p.crew units d).run p.job schedule).workers ≠ [] :=
  Crew.run_workers_ne_nil _ (Crew.start_workers_ne_nil (p.numWorkers_pos _) _ _) schedule

/-- **A crew publishes what a publisher does alone.** However many workers there are and however their steps are mixed,
no unit is lost or taken twice: its number is in the queue, in the hands of one worker, or on a filled slot. When all
have left, the results are those that the units get when they are published alone, in the order of the units. -/
theorem publishAllBy_eq (p : Publisher) (units : List CompiledUnit) (d : Desk)
    (hok : ∀ u ∈ units, ∃ r, (p.publish u).answer d = .ok r) (schedule : List Nat) :
    ((p.crew units d).run p.job schedule).whereabouts.Perm (List.range units.length) ∧
    ((units ≠ [] → ∀ x ∈ ((p.crew units d).run p.job schedule).workers, x = .exited) →
      ∃ results, (p.publishAllBy schedule units).answer d = .ok results ∧
        results.map .ok = units.map fun u => (p.publish u).answer d) := by
  have horderly := orderly_crew hok schedule
  refine ⟨horderly.whole.places, fun hleft => ?_⟩
  cases units with
  | nil =>
    -- nobody is called upon when there is nothing to do
    obtain ⟨o, ho⟩ := p.log.exists_write (by decide : LogLevel.warning ≠ .disabled)
      "publish_all called with no units" d.outbox
    refine ⟨[], ?_, rfl⟩
    rw [publishAllBy, List.isEmpty_nil, if_pos rfl, answer_bind, (run_logged ..).1, ho]
    rfl
  | cons u us =>
    obtain ⟨results, hresults, heq⟩ := horderly.exists_results (workers_ne_nil _ schedule) (hleft (by simp))
    exact ⟨results, hresults, heq⟩

/-- Two workers. Nothing is logged. -/
def quietPair : Publisher := ⟨⟨.e0, 4, some 2⟩, ⟨.disabled, none⟩, id, 8⟩

/-- A desk with statistics and without a dump. -/
def plainDesk : Desk := ⟨.empty, some (.new "-"), .unread none⟩

/-- A unit that reads what it has written, one that reads what it has not, and an empty one. -/
def threeUnits : List CompiledUnit :=
  [⟨"reads", .e0, [[.const (.gp 0 .w64) 1], [.blackbox (.gp 0 .w64)]], by decide⟩,
    ⟨"fails", .e0, [[.blackbox (.gp 3 .w8)]], by decide⟩, ⟨"rests", .e0, [[]], by decide⟩]

/-- The second worker does two jobs while the first one does one, and the results are in order. -/
theorem threeUnits_publishAllBy :
    (∀ u ∈ threeUnits, ∃ r, (quietPair.publish u).answer plainDesk = .ok r) ∧
    (threeUnits ≠ [] → ∀ x ∈ ((quietPair.crew threeUnits plainDesk).run quietPair.job
      [0, 1, 1, 1, 1, 0, 1, 1, 1, 0, 0]).workers, x = .exited) ∧
    ∃ results, (quietPair.publishAllBy [0, 1, 1, 1, 1, 0, 1, 1, 1, 0, 0] threeUnits).answer plainDesk = .ok results ∧
      results.map .ok = threeUnits.map fun u => (quietPair.publish u).answer plainDesk := by
  have hok : ∀ u ∈ threeUnits, ∃ r, (quietPair.publish u).answer plainDesk = .ok r := by
    have hsome : ∀ u ∈ threeUnits, ((quietPair.publish u).answer plainDesk).toOption.isSome := by decide +kernel
    exact fun u hu => (Option.isSome_iff_exists.1 (hsome u hu)).imp fun _ => toOption_eq_some.1
  have hleft : threeUnits ≠ [] → ∀ x ∈ ((quietPair.crew threeUnits plainDesk).run quietPair.job
      [0, 1, 1, 1, 1, 0, 1, 1, 1, 0, 0]).workers, x = .exited := by
    decide +kernel
  exact ⟨hok, hleft, (publishAllBy_eq quietPair threeUnits plainDesk hok _).2 hleft⟩

end Publisher

end ChillHints
