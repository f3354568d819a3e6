import ChillHints.Proofs.Control

/-!
# The flow of a unit covers its runs

What the analyses know of control is static: the successors of a block, by its last instruction; the predecessors,
which are the same edges read backwards; and the blocks that a search from the entry finds.

* Collecting predecessors edge by edge gives the same lists as looking for them block by block (`collectPreds_eq`). In
  a structured unit these are the blocks with an edge, each once and in ascending order.
* `Route` says what a run does by place: it executes the instructions of a block one after the other, goes on at the
  end of the block over a successor edge, and ends in one of four ways. Whatever the store, the run of a structured
  unit is a route from the entry (`route_go`), and a route executes only blocks that can be reached
  (`Route.path_of_mem`).
-/

namespace ChillHints

/-- The only terminator without successors is `ret`. -/
theorem Inst.eq_ret_of_exits {i : Inst} (h : i.exits? = some []) : ∃ v, i = .ret v := by
  cases i with
  | ret v => exact ⟨v, rfl⟩
  | condbr cond yes no =>
    simp only [exits?, Option.some.injEq] at h
    split at h <;> cases h
  | _ => cases h

namespace CompiledUnit

variable {u : CompiledUnit} {n b k step : Nat}

/-! ## Predecessors, edge by edge -/

theorem nodup_successors (u : CompiledUnit) (b : Nat) : (u.successors b).Nodup := by
  unfold successors
  cases hexits : (u.blocks.getD b []).getLast?.bind Inst.exits? with
  | none => by_cases hb : b + 1 < u.size <;> simp [hb]
  | some ts =>
    obtain ⟨i, -, hi⟩ := Option.bind_eq_some_iff.mp hexits
    cases i with
    | condbr cond yes no =>
      cases hi
      by_cases h : yes = no
      · simp [h]
      · simp [h, UInt32.toNat_inj]
    | br target => cases hi; exact List.nodup_singleton _
    | ret val => cases hi; exact List.nodup_nil
    | _ => cases hi

/-- Enters `p` as a predecessor of the blocks `ts`, all of which must exist. -/
def addPred (p : Fin n) : List Nat → Cells n (List (Fin n)) → Except Fault (Cells n (List (Fin n)))
  | [], preds => .ok preds
  | t :: ts, preds =>
    if h : t < n then addPred p ts (preds.put ⟨t, h⟩ (preds.get ⟨t, h⟩ ++ [p])) else .error (.outOfRange n t)

/-- Enters each of the blocks `ps` as a predecessor of its successors. -/
def addPreds (u : CompiledUnit) : List (Fin u.size) → Cells u.size (List (Fin u.size)) →
    Except Fault (Cells u.size (List (Fin u.size)))
  | [], preds => .ok preds
  | p :: ps, preds => do
    let preds ← addPred p (u.successors p) preds
    u.addPreds ps preds

/-- The predecessors of every block, collected block by block and edge by edge. -/
def collectPreds (u : CompiledUnit) : Except Fault (Cells u.size (List (Fin u.size))) :=
  u.addPreds (List.finRange u.size) (.all [])

/-- The first target that does not exist is the fault. -/
theorem addPred_stray (p : Fin n) {ts : List Nat} {t : Nat} (h : ts.find? (fun t => n ≤ t) = some t)
    (preds : Cells n (List (Fin n))) : addPred p ts preds = .error (.outOfRange n t) := by
  induction ts generalizing preds with
  | nil => cases h
  | cons t' ts ih =>
    rw [addPred]
    by_cases ht : t' < n
    · rw [List.find?_cons_of_neg (by simpa using ht)] at h
      rw [dif_pos ht]
      exact ih h _
    · rw [List.find?_cons_of_pos (by simpa using ht)] at h
      cases h
      rw [dif_neg ht]

/-- Where all targets exist, the block is entered behind what each of them has. -/
theorem addPred_ok (p : Fin n) {ts : List Nat} (hts : ts.Nodup) (h : ∀ t ∈ ts, t < n) (preds : Cells n (List (Fin n))) :
    addPred p ts preds = .ok (Cells.tabulate fun c => preds.get c ++ if ts.contains c.val then [p] else []) := by
  induction ts generalizing preds with
  | nil =>
    rw [addPred]
    congr 1
    exact Cells.ext_get fun c => by simp
  | cons t ts ih =>
    have ht := h t List.mem_cons_self
    obtain ⟨hmem, hts⟩ := List.nodup_cons.mp hts
    rw [addPred, dif_pos ht, ih hts fun t' ht' => h t' (List.mem_cons_of_mem t ht')]
    congr 1
    apply Cells.ext_get
    intro c
    rw [Cells.get_tabulate, Cells.get_tabulate, Cells.get_put]
    by_cases hc : t = c.val
    · subst hc
      simp [hmem]
    · have hne : (⟨t, ht⟩ : Fin n) ≠ c := fun heq => hc (congrArg Fin.val heq)
      simp [hne, Ne.symm hc]

theorem addPreds_stray {ps : List (Fin u.size)} {t : Nat} (h : (ps.findSome? fun p => u.stray? p.val) = some t)
    (preds : Cells u.size (List (Fin u.size))) : u.addPreds ps preds = .error (.outOfRange u.size t) := by
  induction ps generalizing preds with
  | nil => cases h
  | cons p ps ih =>
    rw [List.findSome?_cons] at h
    cases hp : u.stray? p.val with
    | some t' =>
      rw [hp] at h
      cases h
      exact bind_eq_error.mpr (.inl (addPred_stray p hp preds))
    | none =>
      rw [hp] at h
      have hlt : ∀ t ∈ u.successors p.val, t < u.size := by
        simpa [stray?, List.find?_eq_none] using hp
      exact bind_eq_error.mpr (.inr ⟨_, addPred_ok p (u.nodup_successors p) hlt preds, ih h _⟩)

theorem addPreds_ok {ps : List (Fin u.size)} (h : ∀ p ∈ ps, u.stray? p.val = none)
    (preds : Cells u.size (List (Fin u.size))) : u.addPreds ps preds =
      .ok (Cells.tabulate fun c => preds.get c ++ ps.filter fun p => (u.successors p.val).contains c.val) := by
  induction ps generalizing preds with
  | nil =>
    rw [addPreds]
    congr 1
    exact Cells.ext_get fun c => by simp
  | cons p ps ih =>
    have hlt : ∀ t ∈ u.successors p.val, t < u.size := by
      simpa [stray?, List.find?_eq_none] using h p List.mem_cons_self
    rw [addPreds, addPred_ok p (u.nodup_successors p) hlt, bind_of_ok rfl,
      ih fun p' hp' => h p' (List.mem_cons_of_mem p hp')]
    congr 1
    apply Cells.ext_get
    intro c
    rw [Cells.get_tabulate, Cells.get_tabulate, Cells.get_tabulate, List.append_assoc, List.filter_cons]
    by_cases hc : (u.successors p).contains c.val = true
    · rw [if_pos hc, if_pos hc, List.singleton_append]
    · rw [if_neg hc, if_neg hc, List.nil_append]

theorem preds_graph (c : Fin u.size) :
    u.graph.preds c = (List.finRange u.size).filter fun p => (u.successors p.val).contains c.val := by
  rw [Graph.preds]
  congr 1
  funext p
  rw [Bool.eq_iff_iff, List.contains_iff_mem, List.contains_iff_mem]
  exact edge_graph

/-- **Collecting edges and looking for each block give the same predecessors**, or the same fault. -/
theorem collectPreds_eq (u : CompiledUnit) : u.collectPreds = u.predecessors := by
  unfold collectPreds predecessors firstStray?
  cases hstray : (List.finRange u.size).findSome? fun b => u.stray? b.val with
  | some t => exact addPreds_stray hstray _
  | none =>
    rw [addPreds_ok (List.findSome?_eq_none_iff.mp hstray)]
    congr 1
    apply Cells.ext_get
    intro c
    rw [Cells.get_tabulate, Cells.get_tabulate, Cells.get_all, List.nil_append, preds_graph]

/-! ## Paths -/

/-- Block `c` can be reached from block `b` over successor edges. -/
def Path (u : CompiledUnit) : Nat → Nat → Prop := Relation.ReflTransGen fun b c => c ∈ u.successors b

/-- Some path arrives at a block if the block can be reached from the entry. -/
theorem exists_arrives_iff : (∃ h, u.Arrives b h) ↔ u.Path 0 b := by
  constructor
  · rintro ⟨h, hb⟩
    induction hb with
    | entry => exact .refl
    | edge _ hc ih => exact ih.tail hc
  · intro hb
    induction hb with
    | refl => exact ⟨[], .entry⟩
    | tail _ hc ih =>
      obtain ⟨h, hb⟩ := ih
      exact ⟨_, .edge hb hc⟩

end CompiledUnit

/-! ## Routes -/

section Routes

variable {σ : Type} [RegisterStore σ]

/-- The store breaks off the instruction `i` at `iidx`: when an operand is read, or after it has been executed. -/
inductive Run.StoreFails (e : Edition) (step : Nat) (i : Inst) (iidx : Nat) (s : MachineState σ) (f : Fault) : Prop
  | read : Exec.Refused e step i.reads s f → StoreFails e step i iidx s f
  | after {next : Next} {s₁ : MachineState σ} : Exec.inst e step i s = .ok (next, s₁) →
      RegisterStore.afterInst step iidx s₁.regs = .error f → StoreFails e step i iidx s f

/-- What a run does, as step number `step`, from instruction `k` of block `b` on. -/
inductive CompiledUnit.Route (u : CompiledUnit) : (step b k : Nat) → MachineState σ → Run σ → Prop
  /-- An instruction that is no `ret` is executed, and the block goes on. -/
  | exec {step b k : Nat} {i : Inst} {next : Next} {s s₁ : MachineState σ} {regs : σ} {r : Run σ} :
      step ≤ runLimit → u.At b k i → (∀ v, i ≠ .ret v) → Exec.inst u.edition step i s = .ok (next, s₁) →
      RegisterStore.afterInst step (u.start b + k) s₁.regs = .ok regs →
      Route u (step + 1) b (k + 1) { s₁ with regs } r →
      Route u step b k s ⟨⟨b, u.start b + k⟩ :: r.trail, r.outcome⟩
  /-- At the end of a block, control goes over a successor edge. -/
  | edge {step b k c : Nat} {s : MachineState σ} {r : Run σ} : (u.blockAt b).length ≤ k → c ∈ u.successors b →
      Route u step c 0 s r → Route u step b k s r
  /-- A `ret` is executed. -/
  | returned {step b k : Nat} {v : Option Reg} {next : Next} {s s₁ : MachineState σ} {regs : σ} :
      step ≤ runLimit → u.At b k (.ret v) → Exec.inst u.edition step (.ret v) s = .ok (next, s₁) →
      RegisterStore.afterInst step (u.start b + k) s₁.regs = .ok regs →
      Route u step b k s ⟨[⟨b, u.start b + k⟩], .ok (.returned, { s₁ with regs })⟩
  /-- Control falls through the end of the last block. -/
  | left {step b k : Nat} {s : MachineState σ} : b + 1 = u.size → (u.blockAt b).length ≤ k →
      (∀ i, (u.blockAt b).getLast? = some i → i.exits? = none) → Route u step b k s ⟨[], .ok (.left, s)⟩
  /-- The limit is used up. -/
  | stopped {step b k : Nat} {s : MachineState σ} : step = runLimit + 1 → Route u step b k s ⟨[], .ok (.stopped, s)⟩
  /-- The store breaks off an instruction. -/
  | broken {step b k : Nat} {i : Inst} {s : MachineState σ} {f : Fault} : step ≤ runLimit → u.At b k i →
      Run.StoreFails u.edition step i (u.start b + k) s f →
      Route u step b k s ⟨[⟨b, u.start b + k⟩], .error f⟩

namespace CompiledUnit

variable {u : CompiledUnit} {step b k fuel : Nat} {s : MachineState σ} {r : Run σ}

/-- **A route executes only blocks that can be reached.** -/
theorem Route.path_of_mem (h : u.Route step b k s r) : ∀ x ∈ r.trail, u.Path b x.block := by
  induction h with
  | exec _ _ _ _ _ _ ih =>
    intro x hx
    rcases List.mem_cons.mp hx with rfl | hx
    · exact .refl
    · exact ih x hx
  | edge _ hc _ ih => exact fun x hx => (ih x hx).head hc
  | returned _ _ _ _ => exact fun x hx => by rw [List.mem_singleton.mp hx]; exact .refl
  | broken _ _ _ => exact fun x hx => by rw [List.mem_singleton.mp hx]; exact .refl
  | left _ _ _ => exact fun x hx => absurd hx List.not_mem_nil
  | stopped _ => exact fun x hx => absurd hx List.not_mem_nil

/-- A route that is stopped has used up the limit. -/
theorem Route.length_of_stopped (h : u.Route step b k s r) {s' : MachineState σ} (hr : r.outcome = .ok (.stopped, s')) :
    r.trail.length + step = runLimit + 1 := by
  induction h with
  | exec _ _ _ _ _ _ ih =>
    have := ih hr
    simp only [List.length_cons]
    omega
  | edge _ _ _ ih => exact ih hr
  | returned _ _ _ _ => cases hr
  | broken _ _ _ => cases hr
  | left _ _ _ => cases hr
  | stopped hstep => simpa using hstep

/-- What a run does where control comes to, it does from where control comes. -/
theorem LeadsTo.route {cur : Option Cursor} (h : u.LeadsTo b k cur) (hout : cur = none → r = ⟨[], .ok (.left, s)⟩)
    (hhere : ∀ c k, cur = some c → c.Stands u k → u.Route step c.block k s r) : u.Route step b k s r := by
  induction h with
  | here hc => exact hhere _ _ rfl hc
  | edge hk hd _ ih => exact .edge hk hd (ih hout hhere)
  | out hb hk hexits =>
    rw [hout rfl]
    exact .left hb hk hexits

/-- An instruction of a structured unit breaks off only by the store. -/
theorem Structured.storeFails (hu : u.Structured) {c : Cursor} (hc : c.Stands u k) {f : Fault}
    (h : Run.perform u.edition step c s = .error f) : Run.StoreFails u.edition step c.inst c.iidx s f := by
  rcases bind_eq_error.mp h with hinst | ⟨⟨next, s₁⟩, hinst, h⟩
  · exact .read (Exec.refused_of_inst (fun op hop => hu.group hc.at_inst hop) hinst)
  · rcases bind_eq_error.mp h with hafter | ⟨regs, -, h⟩
    · exact .after hinst hafter
    · cases h

/-- **A run of a structured unit is a route**, whatever the store. -/
theorem route_go (hu : u.Structured) {cur : Option Cursor} (hfuel : fuel + step = runLimit + 1)
    (hlead : u.LeadsTo b k cur) : u.Route step b k s (Run.go u fuel step cur s) := by
  -- by the number of steps that are left, and then by the empty blocks that are passed before the next instruction
  induction fuel generalizing step b k cur s with
  | zero =>
    refine hlead.route (fun h => by rw [h]; rfl) fun c k h _ => ?_
    rw [h]
    exact .stopped (by omega)
  | succ fuel ih =>
    refine hlead.route (fun h => by rw [h]; rfl) fun c k h hc => ?_
    rw [h, Run.go, show c.site = ⟨c.block, u.start c.block + k⟩ from by rw [Cursor.site, hc.iidx_eq]]
    cases hperform : Run.perform u.edition step c s with
    | error f =>
      have hfails := hu.storeFails hc hperform
      rw [hc.iidx_eq] at hfails
      exact .broken (by omega) hc.at_inst hfails
    | ok x =>
      obtain ⟨next, s'⟩ := x
      have hgoes := Run.goes_of_perform hperform
      obtain ⟨s₁, regs, hinst, hafter, rfl⟩ := Run.perform_eq_ok.mp hperform
      rw [hc.iidx_eq] at hafter
      cases next with
      | fall =>
        have hret : ∀ v, c.inst ≠ .ret v := fun v hv => by rw [hv] at hgoes; cases hgoes
        exact .exec (by omega) hc.at_inst hret hinst hafter (ih (by omega) (hc.leadsTo_fall hgoes))
      | jump target =>
        have hret : ∀ v, c.inst ≠ .ret v := fun v hv => by
          obtain ⟨ts, hts, htarget⟩ := hgoes
          rw [hv] at hts
          cases hts
          cases htarget
        exact .exec (by omega) hc.at_inst hret hinst hafter (ih (by omega) (hc.leadsTo_jump hu hgoes))
      | stop =>
        obtain ⟨v, hv⟩ := Inst.eq_ret_of_exits hgoes
        rw [hv] at hinst
        exact .returned (by omega) (hv ▸ hc.at_inst) hinst hafter

end CompiledUnit

end Routes

/-! ## What the flow says -/

namespace CompiledUnit

/-- What `preds` and `marks` say of the blocks of the unit, and of its runs. -/
structure Charted (u : CompiledUnit) (preds : Cells u.size (List (Fin u.size))) (marks : Cells u.size Bool) : Prop where
  /-- The predecessors of a block are the blocks with an edge to it. -/
  mem_preds : ∀ b p, p ∈ preds.get b ↔ b.val ∈ u.successors p
  /-- Each stands once, and they are in ascending order. -/
  ascending : ∀ b, (preds.get b).Pairwise (· < ·)
  /-- The marked blocks are those that can be reached from the entry. -/
  marked_iff : ∀ b, marks.get b = true ↔ u.Path 0 b
  /-- Every run, on whatever store, is a route from the entry. -/
  route : ∀ {σ : Type} [RegisterStore σ] (regs : σ), u.Route 1 0 0 ⟨regs, initialSp, [], []⟩ (Run.ofUnit u regs)
  /-- Only marked blocks are executed. -/
  executed : ∀ {σ : Type} [RegisterStore σ] (regs : σ), ∀ x ∈ (Run.ofUnit u regs).trail,
    ∃ h : x.block < u.size, marks.get ⟨x.block, h⟩ = true
  /-- A run that is stopped has executed as many instructions as the limit allows. -/
  stopped : ∀ {σ : Type} [RegisterStore σ] (regs : σ) (s : MachineState σ),
    (Run.ofUnit u regs).outcome = .ok (.stopped, s) → (Run.ofUnit u regs).trail.length = runLimit

/-- **The flow covers the runs.** A structured unit has predecessors, which are the edges read backwards; marks, which
are on the blocks that can be reached; and its runs follow the edges. -/
theorem flow_covers_runs (u : CompiledUnit) (h : u.structureFlaw? = none) :
    ∃ preds marks, u.predecessors = .ok preds ∧ u.collectPreds = .ok preds ∧ u.reachable = .ok marks ∧
      u.Charted preds marks := by
  have hu := structureFlaw?_none h
  obtain ⟨marks, hmarks, hreached⟩ := hu.exists_reachable
  have hroute : ∀ {σ : Type} [RegisterStore σ] (regs : σ),
      u.Route 1 0 0 ⟨regs, initialSp, [], []⟩ (Run.ofUnit u regs) :=
    fun regs => route_go hu rfl (leadsTo_enter u.entry.isLt)
  have hmarked : ∀ b, marks.get b = true ↔ u.Path 0 b := fun b => (hreached b).trans exists_arrives_iff
  refine ⟨Cells.tabulate u.graph.preds, marks, hu.predecessors_eq, u.collectPreds_eq.trans hu.predecessors_eq, hmarks,
    ?_, ?_, hmarked, hroute, ?_, ?_⟩
  · intro b p
    rw [Cells.get_tabulate, Graph.mem_preds]
    exact edge_graph
  · intro b
    rw [Cells.get_tabulate]
    exact (List.pairwise_lt_finRange u.size).filter _
  · intro σ _ regs x hx
    have hpath := (hroute regs).path_of_mem x hx
    obtain ⟨p, hp⟩ := exists_arrives_iff.mpr hpath
    exact ⟨hp.lt hu, (hmarked ⟨x.block, hp.lt hu⟩).mpr hpath⟩
  · intro σ _ regs s hs
    have := (hroute regs).length_of_stopped hs
    omega

/-- Two branches to one block, a block that is jumped over, a loop, and an empty block at the end. -/
def crossing : CompiledUnit where
  name := "crossing"
  edition := .e0
  blocks := [
    [.const (.gp 0 .w64) 3, .condbr (.gp 0 .w8) 2 2],
    [.br 0],
    [.binOp .sub (.gp 0 .w64) (.gp 0 .w64) (.gp 0 .w64), .condbr (.gp 0 .w64) 2 3],
    []]
  blocks_ne_nil := by decide

theorem crossing_flow_covers_runs : crossing.structureFlaw? = none ∧
    ∃ preds marks, crossing.predecessors = .ok preds ∧ crossing.collectPreds = .ok preds ∧
      crossing.reachable = .ok marks ∧ crossing.Charted preds marks :=
  ⟨by decide +kernel, flow_covers_runs crossing (by decide +kernel)⟩

end CompiledUnit

end ChillHints
