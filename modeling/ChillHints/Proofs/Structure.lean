import ChillHints.Proofs.Position
import ChillHints.Validity.Structure

/-!
# Flawed instructions

`Inst.Flaw` says what is wrong with a single instruction, and by which rejection it is reported; `u.Flawed i r` says
it of the instruction at position `i`. The check for flaws reports a flaw of the first instruction in program order
that has one (`structureFlaw?_some`), and it reports nothing only if there is none (`structureFlaw?_none`).

A unit without flaws is `Structured`. All its registers have groups (`Structured.group`), terminators are the last
instructions of their blocks (`Structured.last_of_term`), and all targets are blocks (`Structured.target_lt`).
-/

namespace ChillHints

/-- What is wrong with the instruction at `iidx`, in a unit of `size` blocks; `last` says that it ends its block. -/
inductive Inst.Flaw (e : Edition) (size iidx : Nat) (inst : Inst) (last : Prop) : Rejection → Prop
  /-- A register is outside the edition. -/
  | register {role : Role} {n : UInt8} {w : Width} : ⟨role, .gp n w⟩ ∈ inst.operands → e.numGp ≤ n.toNat →
      Flaw e size iidx inst last (.registerOutOfBounds iidx (.gp n w) e e.numGp)
  /-- The stack pointer is written or dropped by something else than `sp_add`. -/
  | stackPointer {role : Role} : ⟨role, .sp⟩ ∈ inst.operands → role ≠ .read → (∀ off, inst ≠ .spAdd off) →
      Flaw e size iidx inst last (.stackPointerWrite iidx)
  /-- A terminator is not the last instruction of its block. -/
  | terminator : inst.isTerm = true → ¬ last → Flaw e size iidx inst last (.misplacedTerminator iidx)
  /-- A branch goes to a block that does not exist. -/
  | target {t : Label} : t ∈ inst.targets → size ≤ t.toNat →
      Flaw e size iidx inst last (.invalidBranchTarget iidx t.toNat)

/-! ## One instruction -/

section OneInst

variable {e : Edition} {size iidx : Nat} {inst : Inst} {isLast : Bool} {last : Prop} {r : Rejection}

theorem contains_widths (e : Edition) (w : Width) : e.widths.contains w = true := by
  cases e; cases w <;> rfl

/-- The check of one register. -/
theorem check_gp (e : Edition) (n : UInt8) (w : Width) :
    e.check (.gp n w) = if e.numGp ≤ n.toNat then .error .outOfBounds else .ok () := by
  simp only [Edition.check, contains_widths, if_true]

/-- The registers of an edition are those that have a group. -/
theorem Edition.check_eq_ok_iff (e : Edition) (r : Reg) : e.check r = .ok () ↔ ∃ g, r.group? = some g := by
  cases r with
  | sp => exact ⟨fun _ => ⟨Group.sp, rfl⟩, fun _ => rfl⟩
  | gp n w =>
    cases e
    rw [check_gp]
    by_cases hn : n.toNat < 15
    · simp [Reg.group?, Edition.numGp, hn, Nat.not_le.mpr hn]
    · simp [Reg.group?, Edition.numGp, hn, Nat.le_of_not_lt hn]

/-- The flaw of an operand, by the register it names. -/
theorem operandFlaw?_gp (role : Role) (n : UInt8) (w : Width) : operandFlaw? e iidx inst ⟨role, .gp n w⟩ =
    if e.numGp ≤ n.toNat then some (.registerOutOfBounds iidx (.gp n w) e e.numGp) else none := by
  simp only [operandFlaw?, check_gp]
  by_cases h : e.numGp ≤ n.toNat
  · simp [h]
  · cases role <;> simp [h]

theorem operandFlaw?_sp_some {role : Role} (h : operandFlaw? e iidx inst ⟨role, .sp⟩ = some r) :
    r = .stackPointerWrite iidx ∧ role ≠ .read ∧ ∀ off, inst ≠ .spAdd off := by
  cases role <;> cases inst <;> simp_all [operandFlaw?, Edition.check]

theorem operandFlaw?_sp_none {role : Role} (h : operandFlaw? e iidx inst ⟨role, .sp⟩ = none) :
    role = .read ∨ ∃ off, inst = .spAdd off := by
  cases role <;> cases inst <;> simp_all [operandFlaw?, Edition.check]

/-- What is reported is wrong. -/
theorem instFlaw?_some (hl : isLast = true ↔ last) (h : instFlaw? e size iidx inst isLast = some r) :
    inst.Flaw e size iidx last r := by
  unfold instFlaw? at h
  split at h
  · rename_i r' hop
    cases h
    obtain ⟨⟨role, reg⟩, hmem, hflaw⟩ := List.exists_of_findSome?_eq_some hop
    cases reg with
    | gp n w =>
      rw [operandFlaw?_gp] at hflaw
      split at hflaw
      · rename_i hn; cases hflaw; exact .register hmem hn
      · cases hflaw
    | sp =>
      obtain ⟨rfl, hrole, hne⟩ := operandFlaw?_sp_some hflaw
      exact .stackPointer hmem hrole hne
  · split at h
    · rename_i hterm
      cases h
      simp only [Bool.and_eq_true, Bool.not_eq_true', Bool.eq_false_iff, ne_eq, hl] at hterm
      exact .terminator hterm.1 hterm.2
    · obtain ⟨t, hmem, hflaw⟩ := List.exists_of_findSome?_eq_some h
      unfold targetFlaw? at hflaw
      split at hflaw
      · rename_i ht; cases hflaw; exact .target hmem ht
      · cases hflaw

/-- Where nothing is reported, nothing is wrong. -/
theorem instFlaw?_none (hl : isLast = true ↔ last) (h : instFlaw? e size iidx inst isLast = none) :
    ¬ inst.Flaw e size iidx last r := by
  unfold instFlaw? at h
  split at h
  · cases h
  · rename_i hop
    rw [List.findSome?_eq_none_iff] at hop
    split at h
    · cases h
    · rename_i hterm
      rw [List.findSome?_eq_none_iff] at h
      rintro (⟨hmem, hn⟩ | ⟨hmem, hrole, hne⟩ | ⟨ht, hlast⟩ | ⟨hmem, ht⟩)
      · have := hop _ hmem
        rw [operandFlaw?_gp, if_pos hn] at this
        cases this
      · rcases operandFlaw?_sp_none (hop _ hmem) with h | ⟨off, h⟩
        · exact hrole h
        · exact hne off h
      · apply hterm
        simp only [Bool.and_eq_true, Bool.not_eq_true', Bool.eq_false_iff, ne_eq, hl]
        exact ⟨ht, hlast⟩
      · have := h _ hmem
        rw [targetFlaw?, if_pos ht] at this
        cases this

end OneInst

/-! ## The first flaw -/

/-- The instructions of a list, numbered from `s`, that are checked as a block. -/
theorem blockFlaw?_eq_some {e : Edition} {size s : Nat} {x : List Inst} {r : Rejection}
    (h : blockFlaw? e size ((x.zipIdx s).map fun (y, i) => (i, y)) = some r) :
    ∃ k, ∃ inst : Inst, x[k]? = some inst ∧ inst.Flaw e size (s + k) (k + 1 = x.length) r ∧
      ∀ l < k, ∀ inst' : Inst, x[l]? = some inst' → ∀ r', ¬ inst'.Flaw e size (s + l) (l + 1 = x.length) r' := by
  induction x generalizing s with
  | nil => cases h
  | cons i rest ih =>
    simp only [List.zipIdx_cons, List.map_cons, blockFlaw?] at h
    have hlast : ((rest.zipIdx (s + 1)).map fun (y, i) => (i, y)).isEmpty = true ↔ 0 + 1 = (i :: rest).length := by
      cases rest <;> simp
    split at h
    · rename_i r' hi
      cases h
      exact ⟨0, i, rfl, instFlaw?_some hlast hi, fun l hl => absurd hl (Nat.not_lt_zero l)⟩
    · rename_i hi
      obtain ⟨k, inst, hk, hflaw, hbefore⟩ := ih h
      have hshift : ∀ l, s + 1 + l = s + (l + 1) := fun l => by omega
      have hend : ∀ l, (l + 1 = rest.length) = (l + 1 + 1 = (i :: rest).length) := fun l => by simp
      refine ⟨k + 1, inst, hk, by rw [← hshift, ← hend]; exact hflaw, fun l hl inst' hl' r' => ?_⟩
      cases l with
      | zero =>
        cases hl'
        exact instFlaw?_none hlast hi
      | succ l =>
        rw [← hshift, ← hend]
        exact hbefore l (by omega) inst' (by simpa using hl') r'

theorem blockFlaw?_eq_none {e : Edition} {size s : Nat} {x : List Inst}
    (h : blockFlaw? e size ((x.zipIdx s).map fun (y, i) => (i, y)) = none) {k : Nat} {inst : Inst}
    (hk : x[k]? = some inst) {r : Rejection} : ¬ inst.Flaw e size (s + k) (k + 1 = x.length) r := by
  induction x generalizing s k with
  | nil => cases hk
  | cons i rest ih =>
    simp only [List.zipIdx_cons, List.map_cons, blockFlaw?] at h
    have hlast : ((rest.zipIdx (s + 1)).map fun (y, i) => (i, y)).isEmpty = true ↔ 0 + 1 = (i :: rest).length := by
      cases rest <;> simp
    split at h
    · cases h
    · rename_i hi
      cases k with
      | zero =>
        cases hk
        exact instFlaw?_none hlast hi
      | succ k =>
        have := ih h (k := k) (by simpa using hk)
        rw [show s + (k + 1) = s + 1 + k by omega]
        simpa using this

namespace CompiledUnit

variable {u : CompiledUnit} {b k : Nat} {inst : Inst} {r : Rejection}

/-- The instruction at position `i` is flawed, and `r` reports it. -/
def Flawed (u : CompiledUnit) (i : Nat) (r : Rejection) : Prop :=
  ∃ b k inst, i = u.start b + k ∧ u.At b k inst ∧ inst.Flaw u.edition u.size i (k + 1 = (u.blockAt b).length) r

/-- No instruction is flawed. -/
def Structured (u : CompiledUnit) : Prop := ∀ i r, ¬ u.Flawed i r

/-- **A flaw that is reported is one of the first flawed instruction.** -/
theorem structureFlaw?_some (h : u.structureFlaw? = some r) :
    ∃ i, u.Flawed i r ∧ ∀ j < i, ∀ r', ¬ u.Flawed j r' := by
  obtain ⟨before, x, after, hsplit, hx, hbefore⟩ := List.findSome?_eq_some_iff.mp h
  have hnum : ∀ c x, u.numbered[c]? = some x → ∃ y : List Inst, u.blocks[c]? = some y ∧
      x = (y.zipIdx (u.start c)).map fun (z, i) => (i, z) := by
    intro c x hc
    rw [getElem?_numbered] at hc
    obtain ⟨y, hy, rfl⟩ := Option.map_eq_some_iff.mp hc
    exact ⟨y, hy, rfl⟩
  obtain ⟨y, hy, rfl⟩ := hnum before.length x (by rw [hsplit]; simp)
  obtain ⟨k, inst, hk, hflaw, hfirst⟩ := blockFlaw?_eq_some hx
  have hat : u.At before.length k inst := by rw [At, blockAt_eq hy]; exact hk
  refine ⟨_, ⟨_, k, inst, rfl, hat, by rw [blockAt_eq hy]; exact hflaw⟩, ?_⟩
  -- an earlier instruction is in an earlier block or before this one in the same block
  rintro j hj r' ⟨c, l, inst', rfl, hat', hflaw'⟩
  rcases (start_add_lt_iff hat'.lt hat.lt).mp hj with hc | ⟨rfl, hl⟩
  · have hmem : c < u.numbered.length := by rw [hsplit]; simp; omega
    obtain ⟨z, hz, hzx⟩ := hnum c _ (List.getElem?_eq_getElem hmem)
    have hnone := hbefore (u.numbered.get ⟨c, hmem⟩) (by
      have hc' : u.numbered[c]? = before[c]? := by rw [hsplit]; exact List.getElem?_append_left hc
      exact List.mem_of_getElem? (hc'.symm.trans (List.getElem?_eq_getElem hmem)))
    rw [List.get_eq_getElem, hzx] at hnone
    rw [At, blockAt_eq hz] at hat'
    rw [blockAt_eq hz] at hflaw'
    exact blockFlaw?_eq_none hnone hat' hflaw'
  · rw [At, blockAt_eq hy] at hat'
    rw [blockAt_eq hy] at hflaw'
    exact hfirst l hl inst' hat' r' hflaw'

/-- **Where no flaw is reported there is none.** -/
theorem structureFlaw?_none (h : u.structureFlaw? = none) : u.Structured := by
  rintro i r ⟨b, k, inst, rfl, hat, hflaw⟩
  have hb := hat.block_lt
  obtain ⟨y, hy⟩ : ∃ y, u.blocks[b]? = some y := ⟨_, List.getElem?_eq_getElem hb⟩
  have hnone := List.findSome?_eq_none_iff.mp h _ (List.mem_of_getElem? (by
    rw [getElem?_numbered, hy]; rfl))
  rw [At, blockAt_eq hy] at hat
  rw [blockAt_eq hy] at hflaw
  exact blockFlaw?_eq_none hnone hat hflaw

/-! ## Units without flaws -/

/-- Every register has a group. -/
theorem Structured.group (h : u.Structured) (hat : u.At b k inst) {op : Operand} (hop : op ∈ inst.operands) :
    ∃ g, op.reg.group? = some g := by
  obtain ⟨role, reg⟩ := op
  cases reg with
  | sp => exact ⟨Group.sp, rfl⟩
  | gp n w =>
    by_cases hn : n.toNat < 15
    · exact ⟨_, dif_pos hn⟩
    · refine absurd ⟨b, k, inst, rfl, hat, .register hop ?_⟩ (h (u.start b + k) _)
      cases u.edition
      exact Nat.le_of_not_lt hn

/-- A terminator ends its block. -/
theorem Structured.last_of_term (h : u.Structured) (hat : u.At b k inst) (ht : inst.isTerm = true) :
    k + 1 = (u.blockAt b).length := by
  by_contra hlast
  exact h _ _ ⟨b, k, inst, rfl, hat, .terminator ht hlast⟩

/-- Every target is a block. -/
theorem Structured.target_lt (h : u.Structured) (hat : u.At b k inst) {t : Label} (ht : t ∈ inst.targets) :
    t.toNat < u.size := by
  by_contra hlt
  exact h _ _ ⟨b, k, inst, rfl, hat, .target ht (by omega)⟩

end CompiledUnit

end ChillHints
