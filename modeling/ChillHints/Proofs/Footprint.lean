import ChillHints.Proofs.Direct

/-!
# An instruction touches what its operands name

The operands of an instruction are a list, and what it does to a machine is a program of its own. Here the one is
shown to describe the other.

* `Recorded` is a store that takes down which groups are read, written and dropped. On it an instruction answers as on
  the store beneath, and takes down the groups that it reads, in the order of its operands, and then those that it
  changes (`inst_recorded`).
* On the store with a place for every group, the operands have the values that are in their places (`view?`), and an
  instruction is a function of these values, the stack pointer and the memory (`Direct.inst_eq`). It changes the places
  of the groups that it writes or drops and leaves all others alone (`Direct.get_apply`).
-/

namespace ChillHints

/-! ## Footprints -/

/-- The group of a general purpose register; the stack pointer is not kept in a store. -/
def Reg.gpGroup? : Reg → Option Group
  | .sp => none
  | .gp i w => (Reg.gp i w).group?

/-- What is done to a group. -/
structure Touch where
  role : Role
  group : Group
deriving DecidableEq, Repr

/-- What is done to the group of an operand. -/
def Operand.touch? (op : Operand) : Option Touch := op.reg.gpGroup?.map (Touch.mk op.role)

namespace Inst

/-- The groups of the general purpose registers that are read, in the order of the operands. -/
def consults (i : Inst) : List Group := i.reads.filterMap Reg.gpGroup?

/-- The groups of the general purpose registers that are written or dropped, with what is done to them. -/
def changes (i : Inst) : List Touch := (i.operands.filter (·.role != .read)).filterMap Operand.touch?

/-- The registers are in the edition, and the stack pointer is changed by `sp_add` alone. -/
structure Fits (e : Edition) (i : Inst) : Prop where
  in_edition : ∀ op ∈ i.operands, e.check op.reg = .ok ()
  keeps_sp : ∀ op ∈ i.operands, op.role ≠ .read → op.reg = .sp → ∃ off, i = .spAdd off

end Inst

/-- What a change does to groups. -/
def Change.touches (c : Change) : List Touch := c.operands.filterMap Operand.touch?

section Change

variable {e : Edition} {i : Inst}

/-- What is done to a group is done through a register of the group. -/
theorem Change.exists_of_mem_touches {c : Change} {x : Touch} (h : x ∈ c.touches) :
    ∃ op ∈ c.operands, op.role = x.role ∧ op.reg.group? = some x.group := by
  obtain ⟨op, hop, hx⟩ := List.mem_filterMap.mp h
  obtain ⟨g, hg, rfl⟩ := Option.map_eq_some_iff.mp hx
  refine ⟨op, hop, rfl, ?_⟩
  cases hr : op.reg with
  | sp => rw [hr] at hg; cases hg
  | gp i w => rw [hr] at hg; exact hg

/-- The change that an instruction makes is to the groups that its operands say it writes or drops. -/
theorem Inst.touches_outcome (i : Inst) (vs : List UInt64) (sp : UInt64) (mem : Memory) :
    (i.outcome vs sp mem).change.touches = i.changes := by
  have hreads (rs : List Reg) : (rs.map (Operand.mk .read)).filter (·.role != .read) = [] := by
    rw [List.filter_eq_nil_iff]
    intro op hop
    obtain ⟨r, -, rfl⟩ := List.mem_map.mp hop
    simp
  cases i with
  | call target args rtn =>
    rw [changes, operands, List.filter_append, hreads, List.append_nil]
    cases rtn <;> rfl
  | ret val =>
    rw [changes, operands, hreads]
    rfl
  | _ => rfl

theorem Inst.Fits.group (h : i.Fits e) {op : Operand} (hop : op ∈ i.operands) : ∃ g, op.reg.group? = some g :=
  (e.check_eq_ok_iff op.reg).mp (h.in_edition op hop)

/-- The change that a fitting instruction makes is not to the stack pointer. -/
theorem Inst.Fits.reg_ne_sp (h : i.Fits e) (vs : List UInt64) (sp : UInt64) (mem : Memory) :
    ∀ op ∈ (i.outcome vs sp mem).change.operands, op.reg ≠ .sp := by
  intro op hop hsp
  have hrole : op.role ≠ .read := by
    intro hrole
    cases hc : (i.outcome vs sp mem).change with
    | keep => rw [hc] at hop; cases hop
    | assign r v => rw [hc] at hop; cases List.mem_singleton.mp hop; cases hrole
    | discard r => rw [hc] at hop; cases List.mem_singleton.mp hop; cases hrole
  obtain ⟨off, rfl⟩ := h.keeps_sp op (Inst.mem_operands_of_change hop) hrole hsp
  cases hop

/-- A register that is not the stack pointer has the group under which it is kept in a store. -/
theorem Reg.gpGroup?_of_ne_sp {r : Reg} (h : r ≠ .sp) : r.gpGroup? = r.group? := by
  cases r with
  | sp => exact absurd rfl h
  | gp i w => rfl

end Change

/-! ## A store that takes down what is done -/

/-- A store, and what has been done to its groups, first to last. -/
structure Recorded (σ : Type) where
  store : σ
  log : List Touch

/-- The machine with a log. -/
def MachineState.recorded {σ : Type} (s : MachineState σ) (log : List Touch) : MachineState (Recorded σ) :=
  ⟨⟨s.regs, log⟩, s.sp, s.mem, s.events⟩

section Recording

variable {σ : Type} [RegisterStore σ]

instance : RegisterStore (Recorded σ) where
  read step g r := (RegisterStore.read step g r.store).map fun x => (x.1, ⟨x.2, r.log ++ [⟨.read, g⟩]⟩)
  write g bits v r := ⟨RegisterStore.write g bits v r.store, r.log ++ [⟨.write, g⟩]⟩
  discard g r := ⟨RegisterStore.discard g r.store, r.log ++ [⟨.drop, g⟩]⟩
  afterInst step iidx r := (RegisterStore.afterInst step iidx r.store).map fun s => ⟨s, r.log⟩

/-- An answer, with the machine that has a log. -/
def logged {α : Type} (log : List Touch) (x : α × MachineState σ) : α × MachineState (Recorded σ) :=
  (x.1, x.2.recorded log)

namespace Exec

variable {e : Edition} {step : Nat} {s : MachineState σ} {log : List Touch}

/-- Reading a register takes down its group. -/
theorem value_recorded (r : Reg) : value e step r (s.recorded log) =
    (value e step r s).map (logged (log ++ r.gpGroup?.toList.map (Touch.mk .read))) := by
  cases r with
  | sp =>
    rw [Reg.gpGroup?, Option.toList_none, List.map_nil, List.append_nil]
    rfl
  | gp i w =>
    cases hg : (Reg.gp i w).group? with
    | none =>
      have hgroup : (Reg.gp i w).group = .error (.outOfRange 15 i.toNat) := by rw [Reg.group, hg]; rfl
      simp only [value, hgroup]
      rfl
    | some g =>
      have hgp : (Reg.gp i w).gpGroup? = some g := hg
      have hread : RegisterStore.read step g (s.recorded log).regs =
        (RegisterStore.read step g s.regs).map fun x => (x.1, ⟨x.2, log ++ [⟨.read, g⟩]⟩) := rfl
      rw [value_gp hg, value_gp hg, hread, hgp]
      cases RegisterStore.read step g s.regs <;> rfl

/-- Reading registers takes down their groups, first to last. -/
theorem values_recorded (rs : List Reg) : values e step rs (s.recorded log) =
    (values e step rs s).map (logged (log ++ (rs.filterMap Reg.gpGroup?).map (Touch.mk .read))) := by
  induction rs generalizing s log with
  | nil =>
    rw [List.filterMap_nil, List.map_nil, List.append_nil]
    rfl
  | cons r rs ih =>
    have hlog : (List.filterMap Reg.gpGroup? (r :: rs)).map (Touch.mk .read) =
        r.gpGroup?.toList.map (Touch.mk .read) ++ (rs.filterMap Reg.gpGroup?).map (Touch.mk .read) := by
      rw [List.filterMap_cons, ← List.map_append]
      cases r.gpGroup? <;> rfl
    rw [values_cons, values_cons, value_recorded, hlog, ← List.append_assoc]
    cases value e step r s with
    | error f => rfl
    | ok x =>
      change (values e step rs (x.2.recorded _) >>= _) = (values e step rs x.2 >>= _).map _
      rw [ih]
      cases values e step rs x.2 <;> rfl

/-- A change that is not to the stack pointer takes down what it does. -/
theorem apply_recorded {c : Change} (hc : ∀ op ∈ c.operands, op.reg ≠ .sp) (s : σ) (log : List Touch) :
    c.apply e (⟨s, log⟩ : Recorded σ) = (c.apply e s).map fun s => ⟨s, log ++ c.touches⟩ := by
  cases c with
  | keep => rw [Change.touches, Change.operands, List.filterMap_nil, List.append_nil]; rfl
  | assign r v =>
    have hr : r.gpGroup? = r.group? := Reg.gpGroup?_of_ne_sp (hc ⟨.write, r⟩ (List.mem_singleton_self _))
    simp only [Change.apply, Change.touches, Change.operands, List.filterMap_cons, Operand.touch?, hr, Reg.group]
    cases r.group? <;> rfl
  | discard r =>
    have hr : r.gpGroup? = r.group? := Reg.gpGroup?_of_ne_sp (hc ⟨.drop, r⟩ (List.mem_singleton_self _))
    simp only [Change.apply, Change.touches, Change.operands, List.filterMap_cons, Operand.touch?, hr, Reg.group]
    cases r.group? <;> rfl

/-- **What is taken down are the groups of the operands**: those that are read, in their order, and then those that are
changed. The answer is that of the store beneath. -/
theorem inst_recorded {i : Inst} (hi : i.Fits e) : inst e step i (s.recorded log) =
    (inst e step i s).map (logged (log ++ (i.consults.map (Touch.mk .read) ++ i.changes))) := by
  rw [inst_eq, inst_eq, values_recorded]
  cases values e step i.reads s with
  | error f => rfl
  | ok x =>
    obtain ⟨vs, s₁⟩ := x
    change settle e (i.outcome vs s₁.sp s₁.mem) (s₁.recorded _) = (settle e (i.outcome vs s₁.sp s₁.mem) s₁).map _
    simp only [settle]
    change ((i.outcome vs s₁.sp s₁.mem).change.apply e
      (⟨s₁.regs, log ++ i.consults.map (Touch.mk .read)⟩ : Recorded σ)).map _ = _
    rw [apply_recorded (hi.reg_ne_sp vs s₁.sp s₁.mem), Inst.touches_outcome, List.append_assoc]
    cases (i.outcome vs s₁.sp s₁.mem).change.apply e s₁.regs <;> rfl

end Exec

end Recording

/-! ## Places -/

namespace Direct

variable {e : Edition} {step : Nat} {s t : MachineState Direct}

/-- The value that a register has where its place is not empty. -/
def view (e : Edition) (s : MachineState Direct) : Reg → UInt64
  | .sp => s.sp
  | .gp i w => lowBits (e.bits w) (((Reg.gp i w).group?.bind s.regs.values.get).getD 0)

/-- Registers whose places have the same in both machines have the same values. -/
theorem map_view_congr {rs : List Reg} (hsp : s.sp = t.sp)
    (h : ∀ g ∈ rs.filterMap Reg.gpGroup?, s.regs.values.get g = t.regs.values.get g) :
    rs.map (view e s) = rs.map (view e t) := by
  apply List.map_congr_left
  intro r hr
  cases r with
  | sp => exact hsp
  | gp i w =>
    simp only [view]
    cases hg : (Reg.gp i w).group? with
    | none => rfl
    | some g => rw [Option.bind_some, Option.bind_some, h g (List.mem_filterMap.mpr ⟨_, hr, hg⟩)]

/-- **Reading registers** breaks off when one of their places is empty, and changes nothing. -/
theorem values_eq {rs : List Reg} (hrs : ∀ r ∈ rs, ∃ g, r.group? = some g) (s : MachineState Direct) :
    Exec.values e step rs s =
      if ∃ g ∈ rs.filterMap Reg.gpGroup?, s.regs.values.get g = none then .error .absentValue
      else .ok (rs.map (view e s), s) := by
  induction rs with
  | nil => rfl
  | cons r rs ih =>
    have ih := ih fun r' hr' => hrs r' (List.mem_cons_of_mem r hr')
    rw [Exec.values_cons]
    cases r with
    | sp =>
      have hvalue : Exec.value e step .sp s = .ok (s.sp, s) := rfl
      rw [bind_of_ok hvalue, ih, List.filterMap_cons_none rfl]
      split <;> rfl
    | gp i w =>
      obtain ⟨g, hg⟩ := hrs (.gp i w) List.mem_cons_self
      have hgp : (Reg.gp i w).gpGroup? = some g := hg
      rw [Exec.value_gp hg, List.filterMap_cons_some hgp]
      simp only [List.exists_mem_cons_iff]
      cases hv : s.regs.values.get g with
      | none =>
        rw [if_pos (.inl rfl)]
        simp only [RegisterStore.read, hv]
        rfl
      | some v =>
        have hread : RegisterStore.read step g s.regs = .ok (v, s.regs) := read_eq_ok.mpr ⟨hv, rfl⟩
        have hview : view e s (.gp i w) = lowBits (e.bits w) v := by simp only [view, hg, Option.bind_some, hv]; rfl
        rw [bind_of_ok hread]
        change (Exec.values e step rs s >>= _) = _
        rw [ih, List.map_cons, hview]
        simp only [reduceCtorEq, false_or]
        split <;> rfl

/-- **A fitting instruction** breaks off when a place that it reads is empty, and otherwise does what the values of its
operands say. -/
theorem inst_eq {i : Inst} (hi : i.Fits e) (s : MachineState Direct) : Exec.inst e step i s =
    if ∃ g ∈ i.consults, s.regs.values.get g = none then .error .absentValue
    else Exec.settle e (i.outcome (i.reads.map (view e s)) s.sp s.mem) s := by
  rw [Exec.inst_eq, values_eq fun r hr => hi.group (Inst.mem_reads.mp hr)]
  unfold Inst.consults
  split <;> rfl

end Direct

/-- What a change puts into the place of `g`; `none` if it leaves the place alone. -/
def Change.puts? (e : Edition) (g : Group) : Change → Option (Option UInt64)
  | keep => none
  | assign r v => if r.group? = some g then some (some (lowBits (e.bits r.width) v)) else none
  | discard r => if r.group? = some g then some none else none

namespace Direct

variable {e : Edition} {step : Nat} {c : Change}

/-- What is in a place after a change. -/
theorem get_apply {s s' : Direct} (h : c.apply e s = .ok s') (g : Group) :
    s'.values.get g = (c.puts? e g).getD (s.values.get g) := by
  cases c with
  | keep => cases h; rfl
  | assign r v =>
    obtain ⟨h', hg, rfl⟩ := map_eq_ok.mp h
    simp only [RegisterStore.write, Cells.get_put, Change.puts?, Reg.group_eq_ok.mp hg, Option.some.injEq]
    split <;> rfl
  | discard r =>
    obtain ⟨h', hg, rfl⟩ := map_eq_ok.mp h
    simp only [RegisterStore.discard, Cells.get_put, Change.puts?, Reg.group_eq_ok.mp hg, Option.some.injEq]
    split <;> rfl

/-- What a change puts into the place of a group that it touches: a value by a write, and nothing by a drop. -/
theorem puts?_of_mem {x : Touch} (h : x ∈ c.touches) :
    ∃ y, c.puts? e x.group = some y ∧ (x.role = .write → y.isSome) ∧ (x.role = .drop → y = none) := by
  obtain ⟨op, hop, hrole, hg⟩ := Change.exists_of_mem_touches h
  rw [← hrole]
  cases c with
  | keep => cases hop
  | assign r v =>
    cases List.mem_singleton.mp hop
    exact ⟨_, if_pos hg, fun _ => rfl, (fun h => by cases h)⟩
  | discard r =>
    cases List.mem_singleton.mp hop
    exact ⟨_, if_pos hg, (fun h => by cases h), fun _ => rfl⟩

/-- A change that does not touch a group leaves its place alone. -/
theorem puts?_eq_none {g : Group} (hc : ∀ op ∈ c.operands, op.reg ≠ .sp) (h : ∀ role, ⟨role, g⟩ ∉ c.touches) :
    c.puts? e g = none := by
  have hgroup : ∀ op ∈ c.operands, op.reg.group? ≠ some g := by
    intro op hop hg
    refine h op.role (List.mem_filterMap.mpr ⟨op, hop, ?_⟩)
    rw [Operand.touch?, Reg.gpGroup?_of_ne_sp (hc op hop), hg, Option.map_some]
  cases c with
  | keep => rfl
  | assign r v => exact if_neg (hgroup ⟨.write, r⟩ (List.mem_singleton_self _))
  | discard r => exact if_neg (hgroup ⟨.drop, r⟩ (List.mem_singleton_self _))

/-- When a fitting instruction has an answer, and what it is. -/
theorem inst_eq_ok {i : Inst} (hi : i.Fits e) {s s' : MachineState Direct} {next : Next}
    (h : Exec.inst e step i s = .ok (next, s')) :
    ∃ vs regs, (i.outcome vs s.sp s.mem).change.apply e s.regs = .ok regs ∧
      s' = ⟨regs, (i.outcome vs s.sp s.mem).sp, (i.outcome vs s.sp s.mem).mem,
        s.events ++ (i.outcome vs s.sp s.mem).events⟩ := by
  rw [inst_eq hi] at h
  split at h
  · cases h
  · obtain ⟨regs, hregs, hs⟩ := map_eq_ok.mp h
    cases hs
    exact ⟨_, regs, hregs, rfl⟩

end Direct

/-! ## Operands and what is done -/

namespace Inst

variable {e : Edition} {i : Inst}

/-- Only `sp_add` moves the stack pointer. -/
theorem sp_outcome (h : ∀ off, i ≠ .spAdd off) (vs : List UInt64) (sp : UInt64) (mem : Memory) :
    (i.outcome vs sp mem).sp = sp := by
  cases i with
  | spAdd off => exact absurd rfl (h off)
  | _ => rfl

/-- A fitting instruction can make its change. -/
theorem Fits.exists_apply {σ : Type} [RegisterStore σ] (hi : i.Fits e) (vs : List UInt64) (sp : UInt64) (mem : Memory)
    (s : σ) : ∃ s', (i.outcome vs sp mem).change.apply e s = .ok s' :=
  Change.exists_apply (fun _ hop => hi.group (mem_operands_of_change hop)) s

/-- The operands of an instruction describe what it does. -/
structure Described (e : Edition) (i : Inst) : Prop where
  /-- On any store, it touches the groups that are read, in the order of the operands, and then those it changes. -/
  recorded : ∀ {σ : Type} [RegisterStore σ] (step : Nat) (s : MachineState σ) (log : List Touch),
    Exec.inst e step i (s.recorded log) =
      (Exec.inst e step i s).map (logged (log ++ (i.consults.map (Touch.mk .read) ++ i.changes)))
  /-- The groups that it changes are those of the general purpose registers whose value ends. -/
  changed : i.changes.map Touch.group = i.kills.filterMap Reg.gpGroup?
  /-- It breaks off just when a place that is read is empty. -/
  fault_iff : ∀ (step : Nat) (s : MachineState Direct) (f : Fault), Exec.inst e step i s = .error f ↔
    f = .absentValue ∧ ∃ g ∈ i.consults, s.regs.values.get g = none
  /-- A place has a value after a write. -/
  set : ∀ {step : Nat} {s s' : MachineState Direct} {next : Next}, Exec.inst e step i s = .ok (next, s') →
    ∀ g, ⟨.write, g⟩ ∈ i.changes → (s'.regs.values.get g).isSome
  /-- A place is empty after a drop. -/
  emptied : ∀ {step : Nat} {s s' : MachineState Direct} {next : Next}, Exec.inst e step i s = .ok (next, s') →
    ∀ g, ⟨.drop, g⟩ ∈ i.changes → s'.regs.values.get g = none
  /-- All other places are as before. -/
  kept : ∀ {step : Nat} {s s' : MachineState Direct} {next : Next}, Exec.inst e step i s = .ok (next, s') →
    ∀ g, (∀ role, ⟨role, g⟩ ∉ i.changes) → s'.regs.values.get g = s.regs.values.get g
  /-- Only `sp_add` moves the stack pointer. -/
  sp_kept : (∀ off, i ≠ .spAdd off) → ∀ {step : Nat} {s s' : MachineState Direct} {next : Next},
    Exec.inst e step i s = .ok (next, s') → s'.sp = s.sp
  /-- What it does depends on the stack pointer, the memory and the places that are read, and on nothing else. -/
  determined : ∀ (step : Nat) {s t : MachineState Direct}, s.sp = t.sp → s.mem = t.mem →
    (∀ g ∈ i.consults, s.regs.values.get g = t.regs.values.get g) →
    (∃ f, Exec.inst e step i s = .error f ∧ Exec.inst e step i t = .error f) ∨
    ∃ next new s' t', Exec.inst e step i s = .ok (next, s') ∧ Exec.inst e step i t = .ok (next, t') ∧
      s'.events = s.events ++ new ∧ t'.events = t.events ++ new ∧ s'.mem = t'.mem ∧ s'.sp = t'.sp ∧
      ∀ x ∈ i.changes, s'.regs.values.get x.group = t'.regs.values.get x.group

theorem map_group_changes (i : Inst) : i.changes.map Touch.group = i.kills.filterMap Reg.gpGroup? := by
  simp only [changes, kills, List.filterMap_map, List.map_filterMap, Operand.touch?, Option.map_map]
  congr 1
  funext op
  exact congrFun Option.map_id _

theorem Fits.fault_iff (hi : i.Fits e) (step : Nat) (s : MachineState Direct) (f : Fault) :
    Exec.inst e step i s = .error f ↔ f = .absentValue ∧ ∃ g ∈ i.consults, s.regs.values.get g = none := by
  rw [Direct.inst_eq hi]
  by_cases hempty : ∃ g ∈ i.consults, s.regs.values.get g = none
  · rw [if_pos hempty, Except.error.injEq, eq_comm]
    exact ⟨fun h => ⟨h, hempty⟩, And.left⟩
  · obtain ⟨regs, hregs⟩ := hi.exists_apply (i.reads.map (Direct.view e s)) s.sp s.mem s.regs
    rw [if_neg hempty, Exec.settle, hregs]
    exact ⟨(fun h => by cases h), fun h => absurd h.2 hempty⟩

theorem Fits.determined (hi : i.Fits e) (step : Nat) {s t : MachineState Direct} (hsp : s.sp = t.sp)
    (hmem : s.mem = t.mem) (hregs : ∀ g ∈ i.consults, s.regs.values.get g = t.regs.values.get g) :
    (∃ f, Exec.inst e step i s = .error f ∧ Exec.inst e step i t = .error f) ∨
    ∃ next new s' t', Exec.inst e step i s = .ok (next, s') ∧ Exec.inst e step i t = .ok (next, t') ∧
      s'.events = s.events ++ new ∧ t'.events = t.events ++ new ∧ s'.mem = t'.mem ∧ s'.sp = t'.sp ∧
      ∀ x ∈ i.changes, s'.regs.values.get x.group = t'.regs.values.get x.group := by
  by_cases hempty : ∃ g ∈ i.consults, s.regs.values.get g = none
  · have hempty' : ∃ g ∈ i.consults, t.regs.values.get g = none := by
      obtain ⟨g, hg, hnone⟩ := hempty
      exact ⟨g, hg, (hregs g hg).symm.trans hnone⟩
    exact .inl ⟨_, by rw [Direct.inst_eq hi, if_pos hempty], by rw [Direct.inst_eq hi, if_pos hempty']⟩
  · have hempty' : ¬ ∃ g ∈ i.consults, t.regs.values.get g = none := by
      rintro ⟨g, hg, hnone⟩
      exact hempty ⟨g, hg, (hregs g hg).trans hnone⟩
    -- both compute with the same values, so they make the same change, each to its own places
    obtain ⟨o, ho⟩ : ∃ o, i.outcome (i.reads.map (Direct.view e t)) t.sp t.mem = o := ⟨_, rfl⟩
    have hchanges : o.change.touches = i.changes := ho ▸ i.touches_outcome _ _ _
    obtain ⟨regs, happly⟩ : ∃ regs, o.change.apply e s.regs = .ok regs := ho ▸ hi.exists_apply _ _ _ s.regs
    obtain ⟨regs', happly'⟩ : ∃ regs, o.change.apply e t.regs = .ok regs := ho ▸ hi.exists_apply _ _ _ t.regs
    have hs : Exec.inst e step i s = .ok (o.next, ⟨regs, o.sp, o.mem, s.events ++ o.events⟩) := by
      rw [Direct.inst_eq hi, if_neg hempty, Direct.map_view_congr hsp hregs, hsp, hmem, ho]
      exact map_eq_ok.mpr ⟨regs, happly, rfl⟩
    have ht : Exec.inst e step i t = .ok (o.next, ⟨regs', o.sp, o.mem, t.events ++ o.events⟩) := by
      rw [Direct.inst_eq hi, if_neg hempty', ho]
      exact map_eq_ok.mpr ⟨regs', happly', rfl⟩
    refine .inr ⟨_, _, _, _, hs, ht, rfl, rfl, rfl, rfl, fun x hx => ?_⟩
    rw [← hchanges] at hx
    obtain ⟨y, hy, -⟩ := Direct.puts?_of_mem (e := e) hx
    rw [Direct.get_apply happly, Direct.get_apply happly', hy]
    rfl

/-- **The operands of an instruction describe what it does**, if its registers are in the edition and it leaves the
stack pointer to `sp_add`. -/
theorem described_of_fits (e : Edition) (i : Inst) (hi : i.Fits e) : i.Described e where
  recorded _ _ _ := Exec.inst_recorded hi
  changed := i.map_group_changes
  fault_iff := hi.fault_iff
  set h g hg := by
    obtain ⟨vs, regs, hregs, rfl⟩ := Direct.inst_eq_ok hi h
    rw [← i.touches_outcome vs] at hg
    obtain ⟨y, hy, hset, -⟩ := Direct.puts?_of_mem (e := e) hg
    rw [Direct.get_apply hregs, hy]
    exact hset rfl
  emptied h g hg := by
    obtain ⟨vs, regs, hregs, rfl⟩ := Direct.inst_eq_ok hi h
    rw [← i.touches_outcome vs] at hg
    obtain ⟨y, hy, -, hempty⟩ := Direct.puts?_of_mem (e := e) hg
    rw [Direct.get_apply hregs, hy]
    exact hempty rfl
  kept h g hg := by
    obtain ⟨vs, regs, hregs, rfl⟩ := Direct.inst_eq_ok hi h
    rw [← i.touches_outcome vs] at hg
    rw [Direct.get_apply hregs, Direct.puts?_eq_none (hi.reg_ne_sp vs _ _) hg]
    rfl
  sp_kept hne _ _ _ _ h := by
    obtain ⟨vs, regs, -, rfl⟩ := Direct.inst_eq_ok hi h
    exact sp_outcome hne vs _ _
  determined := hi.determined

/-- A call that reads one group through two views and the stack pointer between them, and writes a third view. -/
def aliasedCall : Inst := .call 7 [.gp 3 .w8, .sp, .gp 3 .w64, .gp 1 .w16] (some (.gp 3 .w32))

theorem fits_aliasedCall : aliasedCall.Fits .e0 where
  in_edition := by decide
  keeps_sp := by simp [aliasedCall, operands]

theorem aliasedCall_described : aliasedCall.Fits .e0 ∧ aliasedCall.Described .e0 :=
  ⟨fits_aliasedCall, described_of_fits .e0 aliasedCall fits_aliasedCall⟩

example : aliasedCall.consults = [3, 3, 1] ∧ aliasedCall.changes = [⟨.write, 3⟩] := by decide

end Inst

end ChillHints
