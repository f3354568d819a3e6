import ChillHints.Proofs.Loop
import ChillHints.Proofs.Written

/-!
# The analysis of writes is exact

The states on entry to the blocks are found by sweeps that start with all blocks unknown. Computing a state takes the
meet of what comes in (`Flow.Incoming`): the state on entry to the unit, and the states at the ends of the known
predecessors. A sweep only makes blocks known and states narrower, so the sweeps end (`entryDefs_fixed`). At the end

* every state is attained: for each group some path brings just what the state says (`Attained`);
* no path brings less (`rank_entryDefs_le`).

So at every instruction the state has the least that is brought by any path (`defsAt_exact`).
-/

namespace ChillHints

/-! ## Where paths meet -/

/-- States of a block, where an unknown one is above all others. -/
def KnownLe : Option Defs → Option Defs → Prop
  | _, none => True
  | none, some _ => False
  | some d, some d' => Defs.Le d d'

theorem KnownLe.refl : ∀ s, KnownLe s s
  | none => trivial
  | some _ => fun _ => Nat.le_refl _

theorem KnownLe.trans : ∀ {x y z}, KnownLe x y → KnownLe y z → KnownLe x z
  | none, _, none, _, _ => trivial
  | some _, _, none, _, _ => trivial
  | _, none, some _, _, h => absurd h id
  | none, some _, some _, h, _ => absurd h id
  | some _, some _, some _, h, h' => fun g => Nat.le_trans (h g) (h' g)

/-- An unknown state weighs more than any known one. -/
def knownWeight : Option Defs → Nat
  | none => 16 * 65 + 1
  | some d => weigh Defs.rank d

theorem foldl_meetKnown_some (ds : List Defs) (d : Defs) : ∃ r, ds.foldl Flow.meetKnown (some d) = some r ∧
    Defs.Le r d ∧ (∀ o ∈ ds, Defs.Le r o) ∧ ∀ g, r.get g = d.get g ∨ ∃ o ∈ ds, r.get g = o.get g := by
  induction ds generalizing d with
  | nil => exact ⟨d, rfl, fun _ => Nat.le_refl _, fun o ho => (by cases ho), fun g => Or.inl rfl⟩
  | cons o ds ih =>
    obtain ⟨r, hr, hd, hds, hattained⟩ := ih (d.meet o)
    have hmeet : ∀ g, Defs.rank (r.get g) ≤ min (Defs.rank (d.get g)) (Defs.rank (o.get g)) := by
      intro g
      have := hd g
      simp only [Defs.get_meet, Defs.rank_narrower] at this
      exact this
    rw [List.foldl_cons, Flow.meetKnown]
    refine ⟨r, hr, fun g => (Nat.le_min.mp (hmeet g)).1, fun o' ho' => ?_, fun g => ?_⟩
    · rcases List.mem_cons.mp ho' with rfl | ho'
      · exact fun g => (Nat.le_min.mp (hmeet g)).2
      · exact hds o' ho'
    · rcases hattained g with h | ⟨o', ho', h⟩
      · rw [Defs.get_meet] at h
        rcases Defs.narrower_eq_or (d.get g) (o.get g) with h' | h'
        · exact Or.inl (h.trans h')
        · exact Or.inr ⟨o, List.mem_cons_self, h.trans h'⟩
      · exact Or.inr ⟨o', List.mem_cons_of_mem _ ho', h⟩

namespace Flow

variable {n : Nat} {f : Flow n} {b : Fin n} {v v' : Cells n (Option Defs)}

/-- The state `o` comes into block `b`: on entry to the unit, or from a predecessor whose state is known. -/
inductive Incoming (f : Flow n) (b : Fin n) (v : Cells n (Option Defs)) : Defs → Prop
  | entry : b.val = 0 → Incoming f b v Defs.atEntry
  | pred {p : Fin n} {d : Defs} : f.graph.Edge p b → f.reached.get p = true → v.get p = some d →
      Incoming f b v (f.exitDefs p d)

/-- The state `s` is the meet of the states that come in; it is unknown if there are none. -/
structure MeetOf (I : Defs → Prop) (s : Option Defs) : Prop where
  known : ∀ o, I o → ∃ d, s = some d
  le : ∀ d, s = some d → ∀ o, I o → Defs.Le d o
  attained : ∀ d, s = some d → ∀ g, ∃ o, I o ∧ d.get g = o.get g

/-- The fold takes the meet of what it starts with, if anything, and of the list. -/
theorem meetOf_foldl (s : Option Defs) (outs : List Defs) :
    MeetOf (fun o => s = some o ∨ o ∈ outs) (outs.foldl meetKnown s) := by
  -- a start that is known, which may be the first of the list
  have hknown (d : Defs) (ds : List Defs) : MeetOf (fun o => o = d ∨ o ∈ ds) (ds.foldl meetKnown (some d)) := by
    obtain ⟨r, hr, hd, hds, hattained⟩ := foldl_meetKnown_some ds d
    rw [hr]
    refine ⟨fun _ _ => ⟨r, rfl⟩, fun r' hr' o ho => ?_, fun r' hr' g => ?_⟩
    · cases hr'
      rcases ho with rfl | ho
      · exact hd
      · exact hds o ho
    · cases hr'
      rcases hattained g with h | ⟨o, ho, h⟩
      · exact ⟨d, Or.inl rfl, h⟩
      · exact ⟨o, Or.inr ho, h⟩
  cases s with
  | some d => simpa only [Option.some.injEq, eq_comm] using hknown d outs
  | none =>
    cases outs with
    | nil =>
      refine ⟨fun o ho => ?_, fun d hd => (by cases hd), fun d hd => (by cases hd)⟩
      rcases ho with ho | ho <;> cases ho
    | cons d ds => simpa only [reduceCtorEq, false_or, List.mem_cons, List.foldl_cons, meetKnown] using hknown d ds

theorem mem_livePreds {p : Fin n} : p ∈ f.livePreds b ↔ f.graph.Edge p b ∧ f.reached.get p = true := by
  rw [livePreds, List.mem_filter, Graph.mem_preds]

theorem incoming_iff {o : Defs} : f.Incoming b v o ↔ (if b.val = 0 then some Defs.atEntry else none) = some o ∨
    o ∈ (f.livePreds b).filterMap fun p => (v.get p).map (f.exitDefs p) := by
  simp only [List.mem_filterMap, Option.map_eq_some_iff, mem_livePreds, Option.ite_none_right_eq_some,
    Option.some.injEq]
  constructor
  · intro h
    cases h with
    | entry h0 => exact Or.inl ⟨h0, rfl⟩
    | pred he hr hd => exact Or.inr ⟨_, ⟨he, hr⟩, _, hd, rfl⟩
  · rintro (⟨h0, rfl⟩ | ⟨p, ⟨he, hr⟩, d, hd, rfl⟩)
    · exact .entry h0
    · exact .pred he hr hd

/-- Computing a state takes the meet. -/
theorem entryDefsOf_meet (hb : f.reached.get b = true) (v : Cells n (Option Defs)) :
    MeetOf (f.Incoming b v) (f.entryDefsOf b v) := by
  rw [entryDefsOf, if_pos hb, show f.Incoming b v = _ from funext fun o => propext incoming_iff]
  exact meetOf_foldl _ _

/-- Blocks that cannot be reached start with nothing. -/
theorem entryDefsOf_unreached (hb : f.reached.get b ≠ true) (v : Cells n (Option Defs)) :
    f.entryDefsOf b v = some Defs.nothing := by
  rw [entryDefsOf, if_neg hb]

/-- The state just before instruction `k` of block `b`. -/
def defsAt (f : Flow n) (b : Fin n) (k : Nat) : Defs :=
  ((f.code.get b).take k).foldl Defs.after ((f.entryDefs.get b).getD Defs.nothing)

end Flow

/-! ## The sweeps end -/

namespace CompiledUnit

variable {u : CompiledUnit} {f : Flow u.size} {g : Group}

/-- Every group is written as wide as some path to the start of block `b` brings. -/
def Attained (u : CompiledUnit) (b : Fin u.size) (s : Option Defs) : Prop :=
  ∀ d, s = some d → ∀ g, u.Brings g b 0 (d.get g)

theorem IsFlow.get_exitDefs (hf : u.IsFlow f) (b : Fin u.size) (d : Defs) (g : Group) :
    (f.exitDefs b d).get g = written u.edition g (d.get g) (u.blockAt b) := by
  rw [Flow.exitDefs, hf.code, Defs.get_foldl_after]

/-- What a path brings to the start of a block that can be reached. -/
theorem Brings.start {b : Nat} {w : Option Nat} {h : List Inst} (hb : u.Arrives b h) (hw : u.Brings g b 0 w) :
    ∃ h', u.Arrives b h' ∧ w = written u.edition g (u.onEntry g) h' := by
  cases hw with
  | path hb' => exact ⟨_, hb', by rw [List.take_zero, List.append_nil]⟩
  | alone hno => exact absurd hb (hno h)

/-- A state that comes in is brought by some path. -/
theorem IsFlow.brings_of_incoming (hf : u.IsFlow f) {b : Fin u.size} {v : Cells u.size (Option Defs)}
    (hv : ∀ c, Attained u c (v.get c)) {o : Defs} (ho : f.Incoming b v o) (g : Group) : u.Brings g b 0 (o.get g) := by
  cases ho with
  | entry h0 =>
    have := Brings.path (g := g) (k := 0) (Arrives.entry (u := u))
    rw [List.take_zero, List.append_nil, written_nil] at this
    rw [get_atEntry u, h0]
    exact this
  | @pred p d he hr hd =>
    obtain ⟨h, hp⟩ := (hf.reached p).mp hr
    obtain ⟨h', hp', hw⟩ := (hv p d hd g).start hp
    have := Brings.path (g := g) (k := 0) (Arrives.edge hp' ((hf.edge p b).mp he))
    rw [List.take_zero, List.append_nil, written_append, ← hw] at this
    rw [hf.get_exitDefs]
    exact this

theorem IsFlow.attained_entryDefsOf (hf : u.IsFlow f) (b : Fin u.size) (v : Cells u.size (Option Defs))
    (hv : ∀ c, Attained u c (v.get c)) : Attained u b (f.entryDefsOf b v) := by
  intro d hd g
  by_cases hb : f.reached.get b = true
  · obtain ⟨o, ho, hg⟩ := (Flow.entryDefsOf_meet hb v).attained d hd g
    rw [hg]
    exact hf.brings_of_incoming hv ho g
  · rw [Flow.entryDefsOf_unreached hb] at hd
    cases hd
    have hno : ∀ h, ¬ u.Arrives b h := fun h hh => hb ((hf.reached b).mpr ⟨h, hh⟩)
    have := Brings.alone (g := g) (k := 0) hno
    rw [List.take_zero, written_nil] at this
    rw [Defs.nothing, Cells.get_all]
    exact this

/-- What is known when more blocks are known, and their states are narrower, is narrower. -/
theorem IsFlow.entryDefsOf_mono (hf : u.IsFlow f) (b : Fin u.size) {v v' : Cells u.size (Option Defs)}
    (h : Below KnownLe v v') : KnownLe (f.entryDefsOf b v) (f.entryDefsOf b v') := by
  by_cases hb : f.reached.get b = true
  · have hm := Flow.entryDefsOf_meet hb v
    have hm' := Flow.entryDefsOf_meet hb v'
    -- each state that comes in for `v'` has a narrower one that comes in for `v`
    have hbelow : ∀ o', f.Incoming b v' o' → ∃ o, f.Incoming b v o ∧ Defs.Le o o' := by
      intro o' ho'
      cases ho' with
      | entry h0 => exact ⟨_, .entry h0, fun _ => Nat.le_refl _⟩
      | @pred p d' he hr hd' =>
        have hp := h p
        rw [hd'] at hp
        cases hd : v.get p with
        | none => rw [hd] at hp; exact absurd hp id
        | some d =>
          rw [hd] at hp
          refine ⟨_, .pred he hr hd, fun g => ?_⟩
          rw [hf.get_exitDefs, hf.get_exitDefs]
          exact Defs.rank_written_mono (hp g) _
    cases hs' : f.entryDefsOf b v' with
    | none => exact trivial
    | some d' =>
      obtain ⟨o', ho', _⟩ := hm'.attained d' hs' Group.sp
      obtain ⟨o, ho, _⟩ := hbelow o' ho'
      obtain ⟨d, hd⟩ := hm.known o ho
      rw [hd]
      intro g
      obtain ⟨o', ho', hg'⟩ := hm'.attained d' hs' g
      obtain ⟨o, ho, hle⟩ := hbelow o' ho'
      rw [hg']
      exact Nat.le_trans (hm.le d hd o ho g) (hle g)
  · rw [Flow.entryDefsOf_unreached hb, Flow.entryDefsOf_unreached hb]
    exact fun _ => Nat.le_refl _

/-- Computing states anew makes them narrower. -/
theorem IsFlow.descent_defs (hf : u.IsFlow f) : Descent f.entryDefsOf KnownLe (Attained u) knownWeight where
  refl := KnownLe.refl
  trans := KnownLe.trans
  mono := hf.entryDefsOf_mono
  keeps := hf.attained_entryDefsOf
  strict b s t hok hle hne := by
    cases s with
    | none =>
      cases t with
      | none => exact absurd rfl hne
      | some d => exact absurd hle id
    | some d =>
      cases t with
      | none => exact Nat.lt_succ_of_le (weigh_le fun g => (hok d rfl g).rank_le)
      | some d' =>
        have hle : Defs.Le d d' := hle
        exact weigh_rank_lt Defs.rank_inj hle fun he => hne (he ▸ rfl)

/-- Where all blocks are unknown, every state can only go down. -/
theorem falls_unknown (u : CompiledUnit) (f : Flow u.size) :
    Descent.Falls f.entryDefsOf KnownLe (Attained u) (.all none) where
  ok b d hd := by rw [Cells.get_all] at hd; cases hd
  below b := by rw [Cells.get_all]; exact trivial

/-- **The sweeps end, with states that are fixed and attained.** -/
theorem IsFlow.entryDefs_fixed (hf : u.IsFlow f) : (∀ b, f.entryDefsOf b f.entryDefs = f.entryDefs.get b) ∧
    ∀ b, Attained u b (f.entryDefs.get b) := by
  obtain ⟨v, hloop, hfix, hok⟩ := hf.descent_defs.loop_sweepStep (falls_unknown u f) (B := 16 * 65 + 1)
    (fun b => by rw [Cells.get_all]; exact Nat.le_refl _)
  have heq : f.entryDefs = v := by
    simp only [Flow.entryDefs, hloop, Option.getD_some]
  rw [heq]
  exact ⟨hfix, hok⟩

/-- **No path brings less to the start of a block than its state says.** -/
theorem IsFlow.rank_entryDefs_le (hf : u.IsFlow f) (hu : u.Structured) {b : Nat} {h : List Inst}
    (hb : u.Arrives b h) (hlt : b < u.size) : ∃ d, f.entryDefs.get ⟨b, hlt⟩ = some d ∧
      ∀ g, Defs.rank (d.get g) ≤ Defs.rank (written u.edition g (u.onEntry g) h) := by
  induction hb with
  | entry =>
    have hr : f.reached.get ⟨0, hlt⟩ = true := (hf.reached _).mpr ⟨[], .entry⟩
    have hm := Flow.entryDefsOf_meet hr f.entryDefs
    rw [hf.entryDefs_fixed.1] at hm
    have hin : f.Incoming ⟨0, hlt⟩ f.entryDefs Defs.atEntry := .entry rfl
    obtain ⟨d, hd⟩ := hm.known _ hin
    refine ⟨d, hd, fun g => ?_⟩
    rw [written_nil, ← get_atEntry u]
    exact hm.le d hd _ hin g
  | @edge p c h hp hc ih =>
    have hplt := hp.lt hu
    obtain ⟨dp, hdp, hle⟩ := ih hplt
    have hr : f.reached.get ⟨c, hlt⟩ = true := (hf.reached _).mpr ⟨_, .edge hp hc⟩
    have hm := Flow.entryDefsOf_meet hr f.entryDefs
    rw [hf.entryDefs_fixed.1] at hm
    have hin : f.Incoming ⟨c, hlt⟩ f.entryDefs (f.exitDefs ⟨p, hplt⟩ dp) :=
      .pred ((hf.edge _ _).mpr hc) ((hf.reached _).mpr ⟨h, hp⟩) hdp
    obtain ⟨d, hd⟩ := hm.known _ hin
    refine ⟨d, hd, fun g => Nat.le_trans (hm.le d hd _ hin g) ?_⟩
    rw [hf.get_exitDefs, written_append]
    exact Defs.rank_written_mono (hle g) _

/-! ## At every instruction -/

theorem IsFlow.get_defsAt (hf : u.IsFlow f) (b : Fin u.size) (k : Nat) (g : Group) : (f.defsAt b k).get g =
    written u.edition g (((f.entryDefs.get b).getD Defs.nothing).get g) ((u.blockAt b).take k) := by
  rw [Flow.defsAt, hf.code, ← List.map_take, Defs.get_foldl_after]

/-- **What the state at an instruction says is brought by some path, and no path brings less.** -/
theorem IsFlow.defsAt_exact (hf : u.IsFlow f) (hu : u.Structured) (b : Fin u.size) (k : Nat) (g : Group) :
    u.Brings g b k ((f.defsAt b k).get g) ∧
      ∀ w, u.Brings g b k w → Defs.rank ((f.defsAt b k).get g) ≤ Defs.rank w := by
  rw [hf.get_defsAt]
  by_cases hb : ∃ h, u.Arrives b h
  · obtain ⟨h, hb⟩ := hb
    obtain ⟨d, hd, _⟩ := hf.rank_entryDefs_le hu hb b.isLt
    have hd : f.entryDefs.get b = some d := hd
    rw [hd, Option.getD_some]
    constructor
    · obtain ⟨h', hb', hw⟩ := (hf.entryDefs_fixed.2 b d hd g).start hb
      rw [hw, ← written_append]
      exact .path hb'
    · intro w hw
      cases hw with
      | path hb' =>
        obtain ⟨d', hd', hle⟩ := hf.rank_entryDefs_le hu hb' b.isLt
        cases hd.symm.trans hd'
        rw [written_append]
        exact Defs.rank_written_mono (hle g) _
      | alone hno => exact absurd hb (hno h)
  · have hno : ∀ h, ¬ u.Arrives b h := fun h hh => hb ⟨h, hh⟩
    have hd : f.entryDefs.get b = some Defs.nothing := by
      rw [← hf.entryDefs_fixed.1 b, Flow.entryDefsOf_unreached]
      exact fun hr => hb ((hf.reached b).mp hr)
    rw [hd, Option.getD_some, Defs.nothing, Cells.get_all]
    constructor
    · exact .alone hno
    · intro w hw
      cases hw with
      | path hb' => exact absurd hb' (hno _)
      | alone _ => exact Nat.le_refl _

end CompiledUnit

end ChillHints
