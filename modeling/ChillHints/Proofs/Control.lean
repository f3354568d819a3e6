import ChillHints.Machine.Run
import ChillHints.Proofs.Exec

/-!
# A run stays on the paths of its unit

A cursor of a run is at an instruction of its block (`Sits`), and in a structured unit the block after that is the
next one until a terminator says otherwise (`Stands`). Between two instructions, control goes over successor edges or
out of the unit (`LeadsTo`): on entering a block, whatever empty blocks are passed on the way (`leadsTo_enter`), and
on going on from an instruction (`Stands.leadsTo_fall`, `Stands.leadsTo_jump`). So what holds by place, and goes along
with control over successor edges (`Edgewise`), holds wherever the run comes to (`LeadsTo.here_of`).

* `go_ok`: a run does not break off if, by an invariant, no instruction does.
* `go_follows`: a run on one store answers what a run on another does if, by an invariant, each instruction does.
-/

namespace ChillHints

/-- The cursor is at instruction `k` of its block. -/
structure Cursor.Sits (u : CompiledUnit) (c : Cursor) (k : Nat) : Prop where
  at_inst : u.At c.block k c.inst
  iidx_eq : c.iidx = u.start c.block + k
  rest_eq : c.rest = (u.blockAt c.block).drop (k + 1)

/-- The cursor is at instruction `k` of its block, and nothing has jumped in that block yet. -/
structure Cursor.Stands (u : CompiledUnit) (c : Cursor) (k : Nat) : Prop extends c.Sits u k where
  next_eq : c.next = c.block + 1

namespace CompiledUnit

variable {u : CompiledUnit} {P : Nat → Nat → Prop} {b k : Nat} {c : Cursor}

/-- What holds at the end of a block holds at the start of its successors. -/
def Edgewise (u : CompiledUnit) (P : Nat → Nat → Prop) : Prop :=
  ∀ b k d, (u.blockAt b).length ≤ k → d ∈ u.successors b → P b k → P d 0

/-- `P` holds where the run is, by block and number in the block; when the run has left the unit, where it last was. -/
def Here (u : CompiledUnit) (P : Nat → Nat → Prop) : Option Cursor → Prop
  | none => ∃ b k, P b k
  | some c => ∃ k, c.Stands u k ∧ P c.block k

/-- From instruction `k` of block `b` on, control comes to where `cur` is without executing anything: over edges, at the
end of a block each, and out of the unit only through the end of the last block. -/
inductive LeadsTo (u : CompiledUnit) : Nat → Nat → Option Cursor → Prop
  | here {c : Cursor} {k : Nat} : c.Stands u k → LeadsTo u c.block k (some c)
  | edge {b k d : Nat} {cur : Option Cursor} : (u.blockAt b).length ≤ k → d ∈ u.successors b → LeadsTo u d 0 cur →
      LeadsTo u b k cur
  | out {b k : Nat} : b + 1 = u.size → (u.blockAt b).length ≤ k →
      (∀ inst, (u.blockAt b).getLast? = some inst → inst.exits? = none) → LeadsTo u b k none

theorem enter_of_le (h : u.size ≤ b) : u.enter b = none := by
  rw [enter, List.drop_eq_nil_of_le h]
  rfl

/-- From the end of a block without a terminator control comes to where it comes from the start of the next one. -/
theorem LeadsTo.next (hb : b < u.size) (hk : (u.blockAt b).length ≤ k)
    (hexits : ∀ inst, (u.blockAt b).getLast? = some inst → inst.exits? = none)
    (h : b + 1 < u.size → u.LeadsTo (b + 1) 0 (u.enter (b + 1))) : u.LeadsTo b k (u.enter (b + 1)) := by
  by_cases hnext : b + 1 < u.size
  · refine .edge hk ?_ (h hnext)
    rw [successors_of_no_exits hexits, if_pos hnext]
    exact List.mem_singleton_self _
  · rw [enter_of_le (Nat.le_of_not_lt hnext)]
    exact .out (by omega) hk hexits

/-- The blocks from `b` on. -/
theorem drop_blocks (hb : b < u.size) : u.blocks.drop b = u.blockAt b :: u.blocks.drop (b + 1) := by
  rw [List.drop_eq_getElem_cons hb, blockAt_eq (List.getElem?_eq_getElem hb)]

/-- An empty block is passed. -/
theorem enter_of_nil (hb : b < u.size) (hblock : u.blockAt b = []) : u.enter b = u.enter (b + 1) := by
  have hstart : u.start (b + 1) = u.start b := by rw [start_succ, hblock, List.length_nil, Nat.add_zero]
  rw [enter, drop_blocks hb, hblock, enterFrom, ← hstart, enter]

/-- Any other block is entered at its first instruction. -/
theorem enter_of_cons (hb : b < u.size) {inst : Inst} {rest : List Inst} (hblock : u.blockAt b = inst :: rest) :
    u.enter b = some ⟨b, u.start b, inst, rest, b + 1⟩ := by
  rw [enter, drop_blocks hb, hblock, enterFrom]

/-- **Entering a block that exists**, whatever empty blocks are passed. -/
theorem leadsTo_enter (hb : b < u.size) : u.LeadsTo b 0 (u.enter b) := by
  -- the number of blocks behind `b` goes down from one empty block to the next
  induction hn : u.size - b generalizing b with
  | zero => omega
  | succ n ih =>
    cases hblock : u.blockAt b with
    | nil =>
      rw [enter_of_nil hb hblock]
      exact .next hb (by simp [hblock]) (by simp [hblock]) fun hnext => ih hnext (by omega)
    | cons inst rest =>
      rw [enter_of_cons hb hblock]
      refine .here (c := ⟨b, u.start b, inst, rest, b + 1⟩) ⟨⟨?_, rfl, ?_⟩, rfl⟩
      · simp only [At, hblock, List.getElem?_cons_zero]
      · simp only [hblock, List.drop_succ_cons, List.drop_zero]

/-- What goes along with control holds where control comes to. -/
theorem LeadsTo.here_of {cur : Option Cursor} (h : u.LeadsTo b k cur) (hP : u.Edgewise P) (hb : P b k) :
    u.Here P cur := by
  induction h with
  | here hc => exact ⟨_, hc, hb⟩
  | edge hk hd _ ih => exact ih (hP _ _ _ hk hd hb)
  | out _ _ _ => exact ⟨_, _, hb⟩

/-- Entering a block. -/
theorem here_enter (hP : u.Edgewise P) (hsome : ∃ b k, P b k) (hb : b < u.size → P b 0) : u.Here P (u.enter b) := by
  by_cases hlt : b < u.size
  · exact (leadsTo_enter hlt).here_of hP (hb hlt)
  · rw [enter_of_le (Nat.le_of_not_lt hlt)]
    exact hsome

end CompiledUnit

namespace Cursor

open CompiledUnit

variable {u : CompiledUnit} {P : Nat → Nat → Prop} {k : Nat} {c : Cursor}

/-- The instruction of a cursor is the one at its position. -/
theorem Sits.getElem?_insts (hc : c.Sits u k) : u.insts[c.iidx]? = some c.inst := by
  rw [hc.iidx_eq]
  exact hc.at_inst.getElem?_insts

/-- Behind an instruction of the middle of a block comes the next one. -/
theorem Sits.succ (hc : c.Sits u k) {inst : Inst} {rest : List Inst} (hrest : c.rest = inst :: rest) (next : Nat) :
    Cursor.Sits u ⟨c.block, c.iidx + 1, inst, rest, next⟩ (k + 1) := by
  have hdrop : (u.blockAt c.block).drop (k + 1) = inst :: rest := hc.rest_eq ▸ hrest
  refine ⟨?_, by rw [hc.iidx_eq, Nat.add_assoc], ?_⟩
  · have := congrArg List.head? hdrop
    rwa [List.head?_drop] at this
  · rw [← List.tail_drop, hdrop]
    rfl

/-- At the end of a block nothing is left of it. -/
theorem Stands.length_eq (hc : c.Stands u k) (hrest : c.rest = []) : (u.blockAt c.block).length = k + 1 := by
  have hle := List.drop_eq_nil_iff.1 (hc.rest_eq ▸ hrest)
  have hlt := hc.at_inst.lt
  omega

theorem Stands.getLast?_eq (hc : c.Stands u k) (hlen : (u.blockAt c.block).length = k + 1) :
    (u.blockAt c.block).getLast? = some c.inst := by
  rw [List.getLast?_eq_getElem?, hlen, Nat.add_sub_cancel]
  exact hc.at_inst

/-- Where control goes behind an instruction that does not jump. -/
theorem Stands.leadsTo_fall (hc : c.Stands u k) (hgo : c.inst.Goes .fall) :
    u.LeadsTo c.block (k + 1) (u.advance c c.next) := by
  unfold advance
  cases hrest : c.rest with
  | cons inst rest =>
    rw [hc.next_eq]
    exact .here ⟨hc.succ hrest _, rfl⟩
  | nil =>
    have hlen := hc.length_eq hrest
    rw [hc.next_eq]
    refine .next hc.at_inst.block_lt (Nat.le_of_eq hlen) (fun inst hinst => ?_) leadsTo_enter
    cases (hc.getLast?_eq hlen).symm.trans hinst
    exact hgo

/-- Where control goes behind an instruction that jumps. -/
theorem Stands.leadsTo_jump (hu : u.Structured) (hc : c.Stands u k) {target : Label}
    (hgo : c.inst.Goes (.jump target)) : u.LeadsTo c.block (k + 1) (u.advance c target.toNat) := by
  obtain ⟨ts, hts, htarget⟩ := hgo
  have hlast := hu.last_of_term hc.at_inst (exits_targets hts).1
  have hrest : c.rest = [] := by rw [hc.rest_eq, hlast, List.drop_length]
  have hsucc : target.toNat ∈ u.successors c.block := by
    rw [successors_of_exits (hc.getLast?_eq hlast.symm) hts]
    exact htarget
  rw [advance, hrest]
  exact .edge (Nat.le_of_eq hlast.symm) hsucc (leadsTo_enter (hu.successor_lt hsucc))

/-- Going on behind an instruction that does not jump. -/
theorem Stands.fall (hP : u.Edgewise P) (hc : c.Stands u k) (hgo : c.inst.Goes .fall) (h : P c.block (k + 1)) :
    u.Here P (u.advance c c.next) := (hc.leadsTo_fall hgo).here_of hP h

/-- Going on behind an instruction that jumps. -/
theorem Stands.jump (hu : u.Structured) (hP : u.Edgewise P) (hc : c.Stands u k) {target : Label}
    (hgo : c.inst.Goes (.jump target)) (h : P c.block (k + 1)) : u.Here P (u.advance c target.toNat) :=
  (hc.leadsTo_jump hu hgo).here_of hP h

end Cursor

/-! ## Runs -/

namespace Run

variable {σ τ : Type} [RegisterStore σ] [RegisterStore τ] {u : CompiledUnit}

theorem perform_eq_ok {e : Edition} {step : Nat} {c : Cursor} {s s' : MachineState σ} {next : Next} :
    perform e step c s = .ok (next, s') ↔ ∃ s₁ regs, Exec.inst e step c.inst s = .ok (next, s₁) ∧
      RegisterStore.afterInst step c.iidx s₁.regs = .ok regs ∧ s' = { s₁ with regs } := by
  simp only [perform, bind_eq_ok, Prod.exists, pure, Except.pure, Except.ok.injEq, Prod.mk.injEq]
  constructor
  · rintro ⟨next, s₁, hinst, regs, hregs, rfl, rfl⟩
    exact ⟨s₁, regs, hinst, hregs, rfl⟩
  · rintro ⟨s₁, regs, hinst, hregs, rfl⟩
    exact ⟨next, s₁, hinst, regs, hregs, rfl, rfl⟩

theorem goes_of_perform {e : Edition} {step : Nat} {c : Cursor} {s s' : MachineState σ} {next : Next}
    (h : perform e step c s = .ok (next, s')) : c.inst.Goes next := by
  obtain ⟨s₁, regs, hinst, -, rfl⟩ := perform_eq_ok.1 h
  obtain ⟨vs, s₂, regs', -, -, rfl, rfl⟩ := Exec.inst_eq_ok.1 hinst
  exact Inst.goes_outcome c.inst

/-- What the reads of an instruction keep, then its change and then what the store does after it. -/
theorem perform_keeps {P Q R : σ → Prop} {e : Edition} {step : Nat} {c : Cursor}
    (hread : ∀ r ∈ c.inst.reads, ∀ g, r.group? = some g → g ≠ Group.sp →
      ∀ s v s', P s → RegisterStore.read step g s = .ok (v, s') → P s')
    (hchange : ∀ vs sp mem s s', P s → (c.inst.outcome vs sp mem).change.apply e s = .ok s' → Q s')
    (hafter : ∀ s s', Q s → RegisterStore.afterInst step c.iidx s = .ok s' → R s')
    {s s' : MachineState σ} {next : Next} (h : P s.regs) (hs : perform e step c s = .ok (next, s')) :
    R s'.regs ∧ ∀ r ∈ c.inst.reads, ∀ g, r.group? = some g → g ≠ Group.sp →
      ∃ t v t', P t ∧ RegisterStore.read step g t = .ok (v, t') := by
  obtain ⟨s₁, regs, hinst, hregs, rfl⟩ := perform_eq_ok.1 hs
  obtain ⟨vs, s₂, regs', hvs, hregs', -, rfl⟩ := Exec.inst_eq_ok.1 hinst
  obtain ⟨h₂, hreads⟩ := Exec.values_keeps hread h hvs
  exact ⟨hafter _ _ (hchange _ _ _ _ _ h₂ hregs') hregs, hreads⟩

/-- As for an instruction alone, with what the stores do after it. -/
theorem perform_follows {R R' R'' : σ → τ → Prop} {e : Edition} {step : Nat} {c : Cursor}
    (hR : ∀ r ∈ c.inst.reads, ∀ g, r.group? = some g → g ≠ Group.sp →
      Exec.ReadFollows R step g (e.bits r.width))
    (hchange : ∀ vs sp mem s t s', R s t → (c.inst.outcome vs sp mem).change.apply e s = .ok s' →
      ∃ t', (c.inst.outcome vs sp mem).change.apply e t = .ok t' ∧ R' s' t')
    (hafter : ∀ s t s', R' s t → RegisterStore.afterInst step c.iidx s = .ok s' →
      ∃ t', RegisterStore.afterInst step c.iidx t = .ok t' ∧ R'' s' t')
    {s s' : MachineState σ} {t : MachineState τ} {next : Next} (h : s.Agree R t)
    (hs : perform e step c s = .ok (next, s')) : ∃ t', perform e step c t = .ok (next, t') ∧ s'.Agree R'' t' := by
  obtain ⟨s₁, regs, hinst, hregs, rfl⟩ := perform_eq_ok.1 hs
  obtain ⟨t₁, hinst', h₁⟩ := Exec.inst_follows hR hchange h hinst
  obtain ⟨regs', hregs', h₂⟩ := hafter _ _ _ h₁.regs hregs
  exact ⟨_, perform_eq_ok.2 ⟨t₁, regs', hinst', hregs', rfl⟩, ⟨h₂, h₁.sp, h₁.mem, h₁.events⟩⟩

/-- **A run does not break off** if no instruction does where the invariant `I` holds, and all keep it. -/
theorem go_ok {I : MachineState σ → Nat → Nat → Prop} (hu : u.Structured) (hI : ∀ s, u.Edgewise (I s))
    (hstep : ∀ step c k s, c.Stands u k → I s c.block k →
      ∃ next s', perform u.edition step c s = .ok (next, s') ∧ I s' c.block (k + 1))
    {fuel step : Nat} {cur : Option Cursor} {s : MachineState σ} (h : u.Here (I s) cur) :
    ∃ ending s', (go u fuel step cur s).outcome = .ok (ending, s') := by
  induction fuel generalizing step cur s with
  | zero => cases cur <;> exact ⟨_, _, rfl⟩
  | succ fuel ih =>
    cases cur with
    | none => exact ⟨_, _, rfl⟩
    | some c =>
      obtain ⟨k, hc, hk⟩ := h
      obtain ⟨next, s', hperform, hs'⟩ := hstep step c k s hc hk
      have hgo := goes_of_perform hperform
      rw [go, hperform]
      cases next with
      | fall => exact ih (hc.fall (hI s') hgo hs')
      | jump target => exact ih (hc.jump hu (hI s') hgo hs')
      | stop => exact ⟨_, _, rfl⟩

/-- **A run on one store follows a run on another**, if each instruction does where the invariant `I` holds. The
invariant may know how many steps are left and the number of the next one. -/
theorem go_follows {I : Nat → Nat → MachineState σ → MachineState τ → Nat → Nat → Prop} (hu : u.Structured)
    (hI : ∀ fuel step s t, u.Edgewise (I fuel step s t))
    (hstep : ∀ fuel step c k s t next s', c.Stands u k → I (fuel + 1) step s t c.block k →
      perform u.edition step c s = .ok (next, s') →
        ∃ t', perform u.edition step c t = .ok (next, t') ∧ I fuel (step + 1) s' t' c.block (k + 1))
    {fuel step : Nat} {cur : Option Cursor} {s s' : MachineState σ} {t : MachineState τ} {ending : Ending}
    (h : u.Here (I fuel step s t) cur) (hgo : (go u fuel step cur s).outcome = .ok (ending, s')) :
    (go u fuel step cur t).trail = (go u fuel step cur s).trail ∧
      ∃ t', (go u fuel step cur t).outcome = .ok (ending, t') ∧ ∃ fuel step b k, I fuel step s' t' b k := by
  induction fuel generalizing step cur s t with
  | zero =>
    cases cur with
    | none => cases hgo; exact ⟨rfl, t, rfl, 0, step, h⟩
    | some c =>
      obtain ⟨k, -, hk⟩ := h
      cases hgo
      exact ⟨rfl, t, rfl, 0, step, c.block, k, hk⟩
  | succ fuel ih =>
    cases cur with
    | none => cases hgo; exact ⟨rfl, t, rfl, fuel + 1, step, h⟩
    | some c =>
      obtain ⟨k, hc, hk⟩ := h
      rw [go] at hgo
      rw [go]
      cases hperform : perform u.edition step c s with
      | error f => rw [hperform] at hgo; cases hgo
      | ok r =>
        obtain ⟨next, s₁⟩ := r
        obtain ⟨t₁, ht₁, hk₁⟩ := hstep _ _ _ _ _ _ _ _ hc hk hperform
        have hgoes := goes_of_perform hperform
        rw [hperform] at hgo
        rw [go, ht₁, hperform]
        cases next with
        | fall =>
          obtain ⟨htrail, ht'⟩ := ih (hc.fall (hI _ _ _ _) hgoes hk₁) hgo
          exact ⟨congrArg (c.site :: ·) htrail, ht'⟩
        | jump target =>
          obtain ⟨htrail, ht'⟩ := ih (hc.jump hu (hI _ _ _ _) hgoes hk₁) hgo
          exact ⟨congrArg (c.site :: ·) htrail, ht'⟩
        | stop => cases hgo; exact ⟨rfl, t₁, rfl, fuel, step + 1, c.block, k + 1, hk₁⟩

end Run

end ChillHints
