import ChillHints.Machine.Exec
import ChillHints.Proofs.Written

/-!
# One instruction on a store

Whatever the store, an instruction first reads its operands, in their order, and then computes from their values what
it does: where control goes, the stack pointer, the memory, what is seen, and a change of at most one register
(`Inst.outcome`). `inst_eq` says so for all instructions at once. What is known of outcomes is that the change is what
the operands say (`ends_outcome`), and that control goes where the flow of the unit has it go (`goes_outcome`).

What is said of a store is kept by an instruction if its reads and its change keep it, and so two stores can be
compared by their reads and changes alone: if these agree, instructions do (`inst_follows`).
-/

namespace ChillHints

/-! ## Outcomes -/

/-- What an instruction does to the store when its operands are read. -/
inductive Change where
  | keep
  | assign (r : Reg) (v : UInt64)
  | discard (r : Reg)

/-- What an instruction does when its operands are read. -/
structure Outcome where
  next : Next
  sp : UInt64
  mem : Memory
  /-- What is seen of it. -/
  events : List Event
  change : Change

/-- The change, made to a store. -/
def Change.apply {σ : Type} [RegisterStore σ] (e : Edition) : Change → σ → Except Fault σ
  | keep, s => .ok s
  | assign r v, s => r.group.map fun g => RegisterStore.write g (e.bits r.width) (lowBits (e.bits r.width) v) s
  | discard r, s => r.group.map fun g => RegisterStore.discard g s

/-- What an instruction does when the values of its operands are `vs`. -/
def Inst.outcome (vs : List UInt64) (sp : UInt64) (mem : Memory) : Inst → Outcome
  | const dst val => ⟨.fall, sp, mem, [], .assign dst val⟩
  | mov dst _ => ⟨.fall, sp, mem, [], .assign dst (vs.getD 0 0)⟩
  | binOp op dst _ _ => ⟨.fall, sp, mem, [], .assign dst (op.eval (vs.getD 0 0) (vs.getD 1 0))⟩
  | load dst _ => ⟨.fall, sp, mem, [], .assign dst (mem.load (vs.getD 0 0))⟩
  | store _ _ => ⟨.fall, sp, (vs.getD 0 0, vs.getD 1 0) :: mem, [.store (vs.getD 0 0) (vs.getD 1 0)], .keep⟩
  | spAdd off => ⟨.fall, sp + off.toInt64.toUInt64, mem, [], .keep⟩
  | drop reg => ⟨.fall, sp, mem, [], .discard reg⟩
  | blackbox _ => ⟨.fall, sp, mem, [.blackbox (vs.getD 0 0)], .keep⟩
  | call target _ rtn =>
    let change := match rtn with
      | some r => .assign r (callValue target vs)
      | none => .keep
    ⟨.fall, sp, mem, [.call target vs], change⟩
  | br target => ⟨.jump target, sp, mem, [], .keep⟩
  | condbr _ yes no => ⟨.jump (if vs.getD 0 0 ≠ 0 then yes else no), sp, mem, [], .keep⟩
  | ret _ => ⟨.stop, sp, mem, [.ret vs.head?], .keep⟩

/-- A call reads its arguments. -/
theorem Inst.reads_call (target : UInt32) (args : List Reg) (rtn : Option Reg) :
    (Inst.call target args rtn).reads = args := by
  cases rtn <;> simp [reads, operands, List.filter_map, Function.comp_def]

theorem Reg.group_eq_ok {r : Reg} {g : Group} : r.group = .ok g ↔ r.group? = some g := by
  unfold group
  cases r.group? <;> simp

/-- No general purpose register is in the group of the stack pointer. -/
theorem Reg.gp_group_ne_sp {i : UInt8} {w : Width} {g : Group} (h : (Reg.gp i w).group? = some g) : g ≠ Group.sp := by
  simp only [group?, Option.dite_none_right_eq_some, Option.some.injEq] at h
  obtain ⟨hi, rfl⟩ := h
  intro heq
  have : i.toNat = 15 := congrArg Fin.val heq
  omega

namespace Exec

variable {σ : Type} [RegisterStore σ] {e : Edition} {step : Nat}

/-- A general purpose register of the edition is read from the store. -/
theorem value_gp {i : UInt8} {w : Width} {g : Group} (hg : (Reg.gp i w).group? = some g) (s : MachineState σ) :
    value e step (.gp i w) s =
      RegisterStore.read step g s.regs >>= fun x => .ok (lowBits (e.bits w) x.1, { s with regs := x.2 }) :=
  bind_of_ok (Reg.group_eq_ok.2 hg) _

theorem values_cons (r : Reg) (rs : List Reg) (s : MachineState σ) : values e step (r :: rs) s =
    value e step r s >>= fun x => values e step rs x.2 >>= fun y => .ok (x.1 :: y.1, y.2) := rfl

/-- Does what is left of an instruction when its operands are read. -/
def settle (e : Edition) (o : Outcome) (s : MachineState σ) : Except Fault (Next × MachineState σ) :=
  (o.change.apply e s.regs).map fun regs => (o.next, ⟨regs, o.sp, o.mem, s.events ++ o.events⟩)

/-- An instruction with one operand. -/
theorem value_then {r : Reg} {k : UInt64 → Exec σ Next} (o : List UInt64 → UInt64 → Memory → Outcome)
    (h : ∀ v s, k v s = settle e (o [v] s.sp s.mem) s) (s : MachineState σ) :
    (value e step r >>= k) s = values e step [r] s >>= fun (vs, s) => settle e (o vs s.sp s.mem) s := by
  change (value e step r s >>= fun (v, s) => k v s) =
    (value e step r s >>= fun (v, s) => Except.ok ([v], s)) >>= fun (vs, s) => settle e (o vs s.sp s.mem) s
  rw [bind_assoc]
  exact bind_congr fun (v, s) => h v s

/-- An instruction with two operands. -/
theorem values_then {r r' : Reg} {k : UInt64 → UInt64 → Exec σ Next} (o : List UInt64 → UInt64 → Memory → Outcome)
    (h : ∀ v v' s, k v v' s = settle e (o [v, v'] s.sp s.mem) s) (s : MachineState σ) :
    (value e step r >>= fun v => value e step r' >>= k v) s =
      values e step [r, r'] s >>= fun (vs, s) => settle e (o vs s.sp s.mem) s := by
  change (value e step r s >>= fun (v, s) => (value e step r' >>= k v) s) =
    (value e step r s >>= fun (v, s) => values e step [r'] s >>= fun (vs, s) => Except.ok (v :: vs, s)) >>=
      fun (vs, s) => settle e (o vs s.sp s.mem) s
  rw [bind_assoc]
  refine bind_congr fun (v, s) => ?_
  change (value e step r' >>= k v) s =
    (values e step [r'] s >>= fun (vs, s) => Except.ok (v :: vs, s)) >>= fun (vs, s) => settle e (o vs s.sp s.mem) s
  rw [value_then (fun vs => o (v :: vs)) (h v), bind_assoc]
  rfl

theorem assign_then_fall (r : Reg) (v : UInt64) (s : MachineState σ) :
    (assign e r v >>= fun _ => pure Next.fall : Exec σ Next) s = settle e ⟨.fall, s.sp, s.mem, [], .assign r v⟩ s := by
  simp only [settle, Change.apply, bind, StateT.bind, assign]
  cases r.group with
  | error f => rfl
  | ok g => simp only [Except.map, List.append_nil]; rfl

theorem discard_then_fall (r : Reg) (s : MachineState σ) :
    (discard r >>= fun _ => pure Next.fall : Exec σ Next) s = settle e ⟨.fall, s.sp, s.mem, [], .discard r⟩ s := by
  simp only [settle, Change.apply, bind, StateT.bind, discard]
  cases r.group with
  | error f => rfl
  | ok g => simp only [Except.map, List.append_nil]; rfl

theorem emit_then_assign (x : Event) (r : Reg) (v : UInt64) (s : MachineState σ) :
    (emit x >>= fun _ => assign e r v >>= fun _ => pure Next.fall : Exec σ Next) s =
      settle e ⟨.fall, s.sp, s.mem, [x], .assign r v⟩ s := by
  change (assign e r v >>= fun _ => pure Next.fall : Exec σ Next) { s with events := s.events ++ [x] } = _
  rw [assign_then_fall]
  simp only [settle, List.append_nil]

/-- **An instruction reads its operands and then does what their values say.** -/
theorem inst_eq (i : Inst) (s : MachineState σ) :
    inst e step i s = values e step i.reads s >>= fun (vs, s) => settle e (i.outcome vs s.sp s.mem) s := by
  cases i with
  | const dst val => exact assign_then_fall dst val s
  | mov dst src => exact value_then (Inst.outcome · · · (.mov dst src)) (fun v s => assign_then_fall dst v s) s
  | binOp op dst lhs rhs =>
    refine values_then (Inst.outcome · · · (.binOp op dst lhs rhs)) (fun l r s => ?_) s
    exact assign_then_fall dst (op.eval l r) s
  | load dst addr =>
    refine value_then (Inst.outcome · · · (.load dst addr)) (fun a s => ?_) s
    exact assign_then_fall dst (s.mem.load a) s
  | store addr val => exact values_then (Inst.outcome · · · (.store addr val)) (fun a v s => rfl) s
  | spAdd off =>
    change _ = settle e ((Inst.spAdd off).outcome [s.sp] s.sp s.mem) s
    simp only [settle, Inst.outcome, Change.apply, Except.map, List.append_nil]
    rfl
  | drop reg => exact discard_then_fall reg s
  | blackbox reg => exact value_then (Inst.outcome · · · (.blackbox reg)) (fun v s => rfl) s
  | call target args rtn =>
    rw [Inst.reads_call]
    change (values e step args s >>= fun (vs, s) => _) = _
    refine bind_congr fun (vs, s) => ?_
    cases rtn with
    | none => rfl
    | some r => exact emit_then_assign (.call target vs) r _ s
  | br target =>
    change _ = settle e ((Inst.br target).outcome [] s.sp s.mem) s
    simp only [settle, Inst.outcome, Change.apply, Except.map, List.append_nil]
    rfl
  | condbr cond yes no =>
    refine value_then (Inst.outcome · · · (.condbr cond yes no)) (fun v s => ?_) s
    simp only [settle, Inst.outcome, Change.apply, Except.map, List.append_nil]
    rfl
  | ret val =>
    cases val with
    | none => rfl
    | some r => exact value_then (Inst.outcome · · · (.ret (some r))) (fun v s => rfl) s

/-- When an instruction has an answer, and what it is. -/
theorem inst_eq_ok {i : Inst} {s s' : MachineState σ} {next : Next} :
    inst e step i s = .ok (next, s') ↔ ∃ vs s₁ regs, values e step i.reads s = .ok (vs, s₁) ∧
      (i.outcome vs s₁.sp s₁.mem).change.apply e s₁.regs = .ok regs ∧
      next = (i.outcome vs s₁.sp s₁.mem).next ∧
      s' = ⟨regs, (i.outcome vs s₁.sp s₁.mem).sp, (i.outcome vs s₁.sp s₁.mem).mem,
        s₁.events ++ (i.outcome vs s₁.sp s₁.mem).events⟩ := by
  simp only [inst_eq, bind_eq_ok, Prod.exists, settle, map_eq_ok, Prod.mk.injEq]
  constructor
  · rintro ⟨vs, s₁, hvs, regs, hregs, rfl, rfl⟩
    exact ⟨vs, s₁, regs, hvs, hregs, rfl, rfl⟩
  · rintro ⟨vs, s₁, regs, hvs, hregs, rfl, rfl⟩
    exact ⟨vs, s₁, hvs, regs, hregs, rfl, rfl⟩

end Exec

/-! ## What the outcome has to do with the operands -/

/-- The operands that a change stands for. -/
def Change.operands : Change → List Operand
  | keep => []
  | assign r _ => [⟨.write, r⟩]
  | discard r => [⟨.drop, r⟩]

/-- Where control can go after an instruction, by the flow of the unit. -/
def Inst.Goes (i : Inst) : Next → Prop
  | .fall => i.exits? = none
  | .jump target => ∃ ts, i.exits? = some ts ∧ target.toNat ∈ ts
  | .stop => i.exits? = some []

namespace Inst

variable {i : Inst} {g : Group} {vs : List UInt64} {sp : UInt64} {mem : Memory}

/-- An instruction changes the groups that its operands say it writes or drops. -/
theorem ends_outcome (i : Inst) (vs : List UInt64) (sp : UInt64) (mem : Memory) (hg : g ≠ Group.sp) :
    i.operands.filter (·.ends g) = (i.outcome vs sp mem).change.operands.filter (·.ends g) := by
  have hreads (rs : List Reg) : (rs.map (Operand.mk .read)).filter (·.ends g) = [] := by
    rw [List.filter_eq_nil_iff]
    intro op hop
    obtain ⟨r, -, rfl⟩ := List.mem_map.1 hop
    simp [Operand.ends]
  cases i with
  | spAdd off => simp [operands, outcome, Change.operands, Operand.ends, Reg.group?, hg.symm]
  | call target args rtn =>
    rw [operands, List.filter_append, hreads, List.append_nil]
    cases rtn <;> rfl
  | ret val => exact hreads val.toList
  | _ => simp [operands, outcome, Change.operands, List.filter_cons, Operand.ends]

/-- A change is one to an operand. -/
theorem mem_operands_of_change {op : Operand} (h : op ∈ (i.outcome vs sp mem).change.operands) : op ∈ i.operands := by
  cases i with
  | call target args rtn =>
    cases rtn with
    | none => cases h
    | some r => exact List.mem_append_left _ h
  | _ => simp_all [operands, outcome, Change.operands]

theorem ends_iff : i.Ends g ↔ i.operands.filter (·.ends g) ≠ [] := by
  simp only [Ends, mem_kills, ne_eq, List.filter_eq_nil_iff, not_forall, Operand.ends]
  constructor
  · rintro ⟨r, ⟨role, hrole, hop⟩, hg⟩
    exact ⟨_, hop, by simp [hrole, hg]⟩
  · rintro ⟨⟨role, r⟩, hop, h⟩
    simp only [Bool.and_eq_true, bne_iff_ne, beq_iff_eq, not_not] at h
    exact ⟨r, ⟨role, h.1, hop⟩, h.2⟩

/-- Control goes where the flow of the unit has it go. -/
theorem goes_outcome (i : Inst) : i.Goes (i.outcome vs sp mem).next := by
  cases i with
  | br target => exact ⟨_, rfl, List.mem_singleton_self _⟩
  | condbr cond yes no =>
    refine ⟨_, rfl, ?_⟩
    split <;> split <;> simp_all
  | _ => rfl

end Inst

/-- A change can be made if it is to a register of the edition. -/
theorem Change.exists_apply {σ : Type} [RegisterStore σ] {e : Edition} {c : Change}
    (h : ∀ op ∈ c.operands, ∃ g, op.reg.group? = some g) (s : σ) : ∃ s', c.apply e s = .ok s' := by
  cases c with
  | keep => exact ⟨s, rfl⟩
  | assign r v =>
    obtain ⟨g, hg⟩ := h ⟨.write, r⟩ (List.mem_singleton_self _)
    exact ⟨_, map_eq_ok.2 ⟨g, Reg.group_eq_ok.2 hg, rfl⟩⟩
  | discard r =>
    obtain ⟨g, hg⟩ := h ⟨.drop, r⟩ (List.mem_singleton_self _)
    exact ⟨_, map_eq_ok.2 ⟨g, Reg.group_eq_ok.2 hg, rfl⟩⟩

/-! ## One store -/

/-- **What reads keep holds when the operands are read**, and every operand is read from a store where it holds. -/
theorem Exec.values_keeps {σ : Type} [RegisterStore σ] {e : Edition} {step : Nat} {P : σ → Prop} {rs : List Reg}
    (hP : ∀ r ∈ rs, ∀ g, r.group? = some g → g ≠ Group.sp →
      ∀ s v s', P s → RegisterStore.read step g s = .ok (v, s') → P s')
    {s s' : MachineState σ} {vs : List UInt64} (h : P s.regs) (hs : values e step rs s = .ok (vs, s')) :
    P s'.regs ∧ ∀ r ∈ rs, ∀ g, r.group? = some g → g ≠ Group.sp →
      ∃ t v t', P t ∧ RegisterStore.read step g t = .ok (v, t') := by
  induction rs generalizing s vs with
  | nil =>
    cases hs
    exact ⟨h, fun r hr => absurd hr List.not_mem_nil⟩
  | cons r rs ih =>
    obtain ⟨⟨v, s₁⟩, hv, hs⟩ := bind_eq_ok.1 hs
    obtain ⟨⟨vs, s₂⟩, hvs, hs⟩ := bind_eq_ok.1 hs
    cases hs
    have ih := fun h₁ : P s₁.regs => ih (fun r' hr' => hP r' (List.mem_cons_of_mem r hr')) h₁ hvs
    cases r with
    | sp =>
      cases hv
      refine ⟨(ih h).1, List.forall_mem_cons.2 ⟨fun g hg hsp => ?_, (ih h).2⟩⟩
      exact absurd (Option.some.inj hg).symm hsp
    | gp i w =>
      obtain ⟨g, hg, hv⟩ := bind_eq_ok.1 hv
      obtain ⟨⟨x, regs⟩, hread, hv⟩ := bind_eq_ok.1 hv
      cases hv
      have hgroup := Reg.group_eq_ok.1 hg
      have h₁ := hP _ (by simp) g hgroup (Reg.gp_group_ne_sp hgroup) _ _ _ h hread
      refine ⟨(ih h₁).1, List.forall_mem_cons.2 ⟨fun g' hg' _ => ?_, (ih h₁).2⟩⟩
      cases hgroup.symm.trans hg'
      exact ⟨_, _, _, h, hread⟩

namespace Exec

variable {σ : Type} [RegisterStore σ] {e : Edition} {step : Nat} {s : MachineState σ} {f : Fault}

/-- The store refuses to read one of the registers, when those before it have been read. -/
inductive Refused (e : Edition) (step : Nat) (rs : List Reg) (s : MachineState σ) (f : Fault) : Prop
  | intro (before : List Reg) (r : Reg) (after : List Reg) (vs : List UInt64) (s₁ : MachineState σ) (g : Group) :
      rs = before ++ r :: after → values e step before s = .ok (vs, s₁) → r.group? = some g → g ≠ Group.sp →
      RegisterStore.read step g s₁.regs = .error f → Refused e step rs s f

/-- Reading registers of the edition breaks off only when the store refuses one. -/
theorem refused_of_values {rs : List Reg} (hrs : ∀ r ∈ rs, ∃ g, r.group? = some g)
    (h : values e step rs s = .error f) : Refused e step rs s f := by
  induction rs generalizing s with
  | nil => cases h
  | cons r rs ih =>
    rw [values_cons] at h
    rcases bind_eq_error.1 h with hr | ⟨⟨v, s₁⟩, hv, h⟩
    · cases r with
      | sp => cases hr
      | gp i w =>
        obtain ⟨g, hg⟩ := hrs (.gp i w) List.mem_cons_self
        rw [value_gp hg] at hr
        rcases bind_eq_error.1 hr with hread | ⟨x, -, hx⟩
        · exact ⟨[], _, rs, [], s, g, rfl, rfl, hg, Reg.gp_group_ne_sp hg, hread⟩
        · cases hx
    · rcases bind_eq_error.1 h with hvs | ⟨x, -, hx⟩
      · obtain ⟨before, r', after, vs, s₂, g, hrs', hvs, hg, hsp, hread⟩ :=
          ih (fun r' hr' => hrs r' (List.mem_cons_of_mem r hr')) hvs
        refine ⟨r :: before, r', after, v :: vs, s₂, g, by rw [hrs', List.cons_append], ?_, hg, hsp, hread⟩
        exact bind_eq_ok.2 ⟨_, hv, bind_eq_ok.2 ⟨_, hvs, rfl⟩⟩
      · cases hx

/-- **An instruction with registers of the edition breaks off only when the store refuses an operand.** -/
theorem refused_of_inst {i : Inst} (hi : ∀ op ∈ i.operands, ∃ g, op.reg.group? = some g)
    (h : inst e step i s = .error f) : Refused e step i.reads s f := by
  rw [inst_eq] at h
  rcases bind_eq_error.1 h with hvs | ⟨⟨vs, s₁⟩, -, h⟩
  · exact refused_of_values (fun r hr => hi ⟨.read, r⟩ (Inst.mem_reads.1 hr)) hvs
  · obtain ⟨regs, hregs⟩ := Change.exists_apply (e := e) (c := (i.outcome vs s₁.sp s₁.mem).change)
      (fun op hop => hi op (Inst.mem_operands_of_change hop)) s₁.regs
    simp only [settle, hregs] at h
    cases h

end Exec

/-! ## Two stores -/

/-- The two machines differ in their stores at most, and these are as `R` says. -/
structure MachineState.Agree {σ τ : Type} (R : σ → τ → Prop) (s : MachineState σ) (t : MachineState τ) : Prop where
  regs : R s.regs t.regs
  sp : s.sp = t.sp
  mem : s.mem = t.mem
  events : s.events = t.events

namespace Exec

open MachineState

variable {σ τ : Type} [RegisterStore σ] [RegisterStore τ] {e : Edition} {step : Nat} {R R' : σ → τ → Prop}

/-- Where `R` holds, the second store answers a read of `g` as the first does, as far as the low `bits` bits are
concerned, and `R` holds again. -/
def ReadFollows (R : σ → τ → Prop) (step : Nat) (g : Group) (bits : Nat) : Prop :=
  ∀ s t v s', R s t → RegisterStore.read step g s = .ok (v, s') →
    ∃ v' t', RegisterStore.read step g t = .ok (v', t') ∧ lowBits bits v' = lowBits bits v ∧ R s' t'

theorem value_follows {r : Reg}
    (hR : ∀ g, r.group? = some g → g ≠ Group.sp → ReadFollows R step g (e.bits r.width))
    {s s' : MachineState σ} {t : MachineState τ} {v : UInt64} (h : s.Agree R t)
    (hs : value e step r s = .ok (v, s')) : ∃ t', value e step r t = .ok (v, t') ∧ s'.Agree R t' := by
  cases r with
  | sp =>
    cases hs
    exact ⟨t, by rw [h.sp]; rfl, h⟩
  | gp i w =>
    obtain ⟨g, hg, hs⟩ := bind_eq_ok.1 hs
    obtain ⟨⟨x, regs⟩, hread, hs⟩ := bind_eq_ok.1 hs
    cases hs
    have hgroup := Reg.group_eq_ok.1 hg
    obtain ⟨x', regs', hread', hbits, hregs⟩ := hR g hgroup (Reg.gp_group_ne_sp hgroup) _ _ _ _ h.regs hread
    refine ⟨{ t with regs := regs' }, ?_, ⟨hregs, h.sp, h.mem, h.events⟩⟩
    have hbits : lowBits (e.bits w) x' = lowBits (e.bits w) x := hbits
    exact bind_eq_ok.2 ⟨g, hg, bind_eq_ok.2 ⟨_, hread', by rw [← hbits]; rfl⟩⟩

theorem values_follows {rs : List Reg}
    (hR : ∀ r ∈ rs, ∀ g, r.group? = some g → g ≠ Group.sp → ReadFollows R step g (e.bits r.width))
    {s s' : MachineState σ} {t : MachineState τ} {vs : List UInt64} (h : s.Agree R t)
    (hs : values e step rs s = .ok (vs, s')) : ∃ t', values e step rs t = .ok (vs, t') ∧ s'.Agree R t' := by
  induction rs generalizing s t vs with
  | nil =>
    cases hs
    exact ⟨t, rfl, h⟩
  | cons r rs ih =>
    obtain ⟨⟨v, s₁⟩, hv, hs⟩ := bind_eq_ok.1 hs
    obtain ⟨⟨vs, s₂⟩, hvs, hs⟩ := bind_eq_ok.1 hs
    cases hs
    obtain ⟨t₁, hv', h₁⟩ := value_follows (hR r (by simp)) h hv
    obtain ⟨t₂, hvs', h₂⟩ := ih (fun r' hr' => hR r' (by simp [hr'])) h₁ hvs
    exact ⟨t₂, bind_eq_ok.2 ⟨_, hv', bind_eq_ok.2 ⟨_, hvs', rfl⟩⟩, h₂⟩

/-- **An instruction on one store follows the same instruction on another**, if the reads of its operands do and then
the change does. -/
theorem inst_follows {i : Inst}
    (hR : ∀ r ∈ i.reads, ∀ g, r.group? = some g → g ≠ Group.sp → ReadFollows R step g (e.bits r.width))
    (hchange : ∀ vs sp mem s t s', R s t → (i.outcome vs sp mem).change.apply e s = .ok s' →
      ∃ t', (i.outcome vs sp mem).change.apply e t = .ok t' ∧ R' s' t')
    {s s' : MachineState σ} {t : MachineState τ} {next : Next} (h : s.Agree R t)
    (hs : inst e step i s = .ok (next, s')) : ∃ t', inst e step i t = .ok (next, t') ∧ s'.Agree R' t' := by
  obtain ⟨vs, s₁, regs, hvs, hregs, rfl, rfl⟩ := inst_eq_ok.1 hs
  obtain ⟨t₁, hvs', h₁⟩ := values_follows hR h hvs
  obtain ⟨regs', hregs', h'⟩ := hchange vs s₁.sp s₁.mem _ _ _ h₁.regs hregs
  refine ⟨_, inst_eq_ok.2 ⟨vs, t₁, regs', hvs', ?_, ?_, rfl⟩, ?_⟩
  · rw [← h₁.sp, ← h₁.mem]
    exact hregs'
  · rw [h₁.sp, h₁.mem]
  · exact ⟨h', by rw [h₁.sp, h₁.mem], by rw [h₁.sp, h₁.mem], by rw [h₁.sp, h₁.mem, h₁.events]⟩

end Exec

end ChillHints
