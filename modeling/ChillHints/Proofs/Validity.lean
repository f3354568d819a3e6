import ChillHints.Proofs.Defs
import ChillHints.Validity.Basic
import Mathlib.Order.Bounds.Basic

/-!
# Validation decides well-formedness

A read is supplied if every path to it brings at least as many written bits as the read has (`Supplied`). The check of
reads goes through the unit in program order, and through the operands of each instruction in their order, and stops
at the first read that is not supplied (`readFlaw?_some`, `readFlaw?_none`). What it reports tells whether some path
brings nothing, and otherwise the least number of bits that any path brings (`regFlaw?_some`).

Together with the check for flaws of single instructions this is validation (`validate_exact`).
-/

namespace ChillHints

namespace CompiledUnit

/-- On every path to the read of `r` by instruction `k` of block `b`, the last write or drop of the group is a write
that is at least as wide as `r`. -/
def Supplied (u : CompiledUnit) (b k : Nat) (r : Reg) : Prop :=
  ∀ g, r.group? = some g → ∀ w, u.Brings g b k w → ∃ m, w = some m ∧ u.edition.bits r.width ≤ m

/-- The read of `r` by instruction `k` of block `b` is not supplied, but all reads before it are: those of earlier
instructions, and those of earlier operands. -/
def FirstUnsupplied (u : CompiledUnit) (b k : Nat) (r : Reg) : Prop :=
  ∃ inst before after, u.At b k inst ∧ inst.reads = before ++ r :: after ∧ ¬ u.Supplied b k r ∧
    (∀ r' ∈ before, u.Supplied b k r') ∧
    ∀ c l inst', u.At c l inst' → u.start c + l < u.start b + k → ∀ r' ∈ inst'.reads, u.Supplied c l r'

/-- The report of an unsupplied read of `r`: that some path brings nothing, or else how little the paths bring. -/
inductive ReadReport (u : CompiledUnit) (b k : Nat) (r : Reg) : Rejection → Prop
  | useBeforeDef {g : Group} : r.group? = some g → u.Brings g b k none →
      ReadReport u b k r (.useBeforeDef (u.start b + k) r)
  | beyondWidth {g : Group} {w : Nat} : r.group? = some g → ¬ u.Brings g b k none →
      IsLeast {w | u.Brings g b k (some w)} w → ReadReport u b k r (.readBeyondWrittenWidth (u.start b + k) r w)

end CompiledUnit

/-! ## One instruction -/

namespace Defs

/-- The flaw of a read of `r` in state `d`. -/
def regFlaw? (d : Defs) (e : Edition) (iidx : Nat) (r : Reg) : Option Rejection :=
  r.group?.bind fun g => d.readFlaw? iidx ⟨.read, r, g, e.bits r.width⟩

theorem regFlaw?_of_none {d : Defs} {e : Edition} {iidx : Nat} {r : Reg} {g : Group} (hg : r.group? = some g)
    (hd : d.get g = none) : d.regFlaw? e iidx r = some (.useBeforeDef iidx r) := by
  simp only [regFlaw?, hg, Option.bind_some, readFlaw?, hd]

theorem regFlaw?_of_some {d : Defs} {e : Edition} {iidx w : Nat} {r : Reg} {g : Group} (hg : r.group? = some g)
    (hd : d.get g = some w) :
    d.regFlaw? e iidx r = if w < e.bits r.width then some (.readBeyondWrittenWidth iidx r w) else none := by
  simp only [regFlaw?, hg, Option.bind_some, readFlaw?, hd]

/-- Only reads can be flawed, and they are looked at in their order. -/
theorem findSome?_accesses (d : Defs) (e : Edition) (iidx : Nat) (i : Inst) :
    (i.accesses e).findSome? (d.readFlaw? iidx) = i.reads.findSome? (d.regFlaw? e iidx) := by
  unfold Inst.accesses Inst.reads
  induction i.operands with
  | nil => rfl
  | cons op ops ih =>
    obtain ⟨role, reg⟩ := op
    cases hg : reg.group? with
    | none =>
      rw [List.filterMap_cons_none (by simp [hg]), ih, List.filter_cons]
      split
      · simp [regFlaw?, hg]
      · rfl
    | some g =>
      rw [List.filterMap_cons_some (by simp only [hg, Option.map_some]; rfl), List.findSome?_cons, ih, List.filter_cons]
      cases role with
      | read => simp [List.findSome?_cons, regFlaw?, hg]
      | write => simp [readFlaw?]
      | drop => simp [readFlaw?]

/-- The first flawed read of a block that is entered in state `d`. -/
theorem blockFlaw?_some {e : Edition} {s : Nat} {is : List Inst} {d : Defs} {rej : Rejection}
    (h : d.blockFlaw? s (is.map (Inst.accesses e)) = some rej) : ∃ k, ∃ inst : Inst, is[k]? = some inst ∧
      inst.reads.findSome? ((((is.map (Inst.accesses e)).take k).foldl after d).regFlaw? e (s + k)) = some rej ∧
      ∀ l < k, ∀ inst' : Inst, is[l]? = some inst' →
        inst'.reads.findSome? ((((is.map (Inst.accesses e)).take l).foldl after d).regFlaw? e (s + l)) = none := by
  induction is generalizing s d with
  | nil => cases h
  | cons i is ih =>
    simp only [List.map_cons, blockFlaw?, findSome?_accesses] at h
    split at h
    · rename_i r hi
      cases h
      exact ⟨0, i, rfl, hi, fun l hl => absurd hl (Nat.not_lt_zero l)⟩
    · rename_i hi
      obtain ⟨k, inst, hk, hflaw, hbefore⟩ := ih h
      have hshift : ∀ l, s + 1 + l = s + (l + 1) := fun l => by omega
      refine ⟨k + 1, inst, hk, by rw [← hshift]; exact hflaw, fun l hl inst' hl' => ?_⟩
      cases l with
      | zero =>
        cases hl'
        exact hi
      | succ l =>
        rw [← hshift]
        exact hbefore l (by omega) inst' hl'

theorem blockFlaw?_none {e : Edition} {s : Nat} {is : List Inst} {d : Defs}
    (h : d.blockFlaw? s (is.map (Inst.accesses e)) = none) {k : Nat} {inst : Inst} (hk : is[k]? = some inst) :
    inst.reads.findSome? ((((is.map (Inst.accesses e)).take k).foldl after d).regFlaw? e (s + k)) = none := by
  induction is generalizing s d k with
  | nil => cases hk
  | cons i is ih =>
    simp only [List.map_cons, blockFlaw?, findSome?_accesses] at h
    split at h
    · cases h
    · rename_i hi
      cases k with
      | zero =>
        cases hk
        exact hi
      | succ k =>
        rw [show s + (k + 1) = s + 1 + k by omega]
        exact ih h hk

end Defs

/-! ## The whole unit -/

namespace CompiledUnit

variable {u : CompiledUnit} {f : Flow u.size} {b : Fin u.size} {k : Nat} {r : Reg} {rej : Rejection}

/-- A read is not flawed just if it is supplied. -/
theorem IsFlow.regFlaw?_none (hf : u.IsFlow f) (hu : u.Structured) {iidx : Nat} :
    (f.defsAt b k).regFlaw? u.edition iidx r = none ↔ u.Supplied b k r := by
  unfold Supplied
  cases hg : r.group? with
  | none => simp [Defs.regFlaw?, hg]
  | some g =>
    obtain ⟨hbrings, hleast⟩ := hf.defsAt_exact hu b k g
    simp only [Option.some.injEq, forall_eq']
    cases hx : (f.defsAt b k).get g with
    | none =>
      rw [hx] at hbrings
      rw [Defs.regFlaw?_of_none hg hx]
      simp only [reduceCtorEq, false_iff]
      intro h
      obtain ⟨m, hm, _⟩ := h none hbrings
      cases hm
    | some m =>
      rw [hx] at hbrings hleast
      rw [Defs.regFlaw?_of_some hg hx]
      split
      · rename_i hlt
        simp only [reduceCtorEq, false_iff]
        intro h
        obtain ⟨m', hm', hle⟩ := h _ hbrings
        cases hm'
        omega
      · rename_i hge
        refine ⟨fun _ w hw => ?_, fun _ => rfl⟩
        have hrank := hleast w hw
        cases w with
        | none => simp [Defs.rank] at hrank
        | some m' =>
          simp only [Defs.rank] at hrank
          exact ⟨m', rfl, by omega⟩

/-- What is reported of a flawed read. -/
theorem IsFlow.regFlaw?_some (hf : u.IsFlow f) (hu : u.Structured)
    (h : (f.defsAt b k).regFlaw? u.edition (u.start b + k) r = some rej) : u.ReadReport b k r rej := by
  cases hg : r.group? with
  | none => simp [Defs.regFlaw?, hg] at h
  | some g =>
    obtain ⟨hbrings, hleast⟩ := hf.defsAt_exact hu b k g
    cases hx : (f.defsAt b k).get g with
    | none =>
      rw [Defs.regFlaw?_of_none hg hx] at h
      rw [hx] at hbrings
      cases h
      exact .useBeforeDef hg hbrings
    | some m =>
      rw [Defs.regFlaw?_of_some hg hx] at h
      rw [hx] at hbrings hleast
      split at h
      · cases h
        refine .beyondWidth hg (fun hnone => ?_) ⟨hbrings, fun m' hm' => ?_⟩
        · have := hleast none hnone
          simp [Defs.rank] at this
        · have := hleast _ hm'
          simp only [Defs.rank] at this
          omega
      · cases h

theorem IsFlow.start_eq (hf : u.IsFlow f) (b : Fin u.size) : f.start b = u.start b := by
  apply length_take_flatten_congr
  apply List.ext_getElem
  · simp [size]
  · intro i h₁ h₂
    have hi : i < u.blocks.length := by simpa using h₂
    have hcode := hf.code ⟨i, hi⟩
    have hget : f.code.get ⟨i, hi⟩ = f.code.toList.get ⟨i, by simpa [size] using hi⟩ := by
      simp [Vector.get]
    have hlen := congrArg List.length (hget.symm.trans hcode)
    rw [List.length_map, blockAt_eq (List.getElem?_eq_getElem hi)] at hlen
    simpa using hlen

/-- **What is reported is the first read that is not supplied.** -/
theorem IsFlow.readFlaw?_some (hf : u.IsFlow f) (hu : u.Structured) (h : f.readFlaw? = some rej) :
    ∃ b k r, u.FirstUnsupplied b k r ∧ u.ReadReport b k r rej := by
  obtain ⟨before, b, after, hsplit, hb, hbefore⟩ := List.findSome?_eq_some_iff.mp h
  rw [hf.code, hf.start_eq] at hb
  obtain ⟨k, inst, hat, hflaw, hfirst⟩ := Defs.blockFlaw?_some hb
  have hat : u.At b k inst := hat
  rw [← hf.code] at hflaw hfirst
  obtain ⟨regs, r, regs', hreads, hr, hregs⟩ := List.findSome?_eq_some_iff.mp hflaw
  have hunsupplied : ¬ u.Supplied b k r := by
    intro hs
    rw [← hf.regFlaw?_none hu (b := b)] at hs
    cases hr.symm.trans hs
  refine ⟨b, k, r, ⟨inst, regs, regs', hat, hreads, hunsupplied, fun r' hr' => ?_, ?_⟩, hf.regFlaw?_some hu hr⟩
  · exact (hf.regFlaw?_none hu).mp (hregs r' hr')
  · -- an earlier instruction is in an earlier block or before this one in the same block
    intro c l inst' hat' hlt r' hr'
    have hc : c < u.size := hat'.block_lt
    rcases (start_add_lt_iff hat'.lt hat.lt).mp hlt with hcb | ⟨rfl, hl⟩
    · have hmem : (⟨c, hc⟩ : Fin u.size) ∈ before := by
        have hlen : before.length = b.val := by
          have hb : (List.finRange u.size)[before.length]? = some b := by rw [hsplit]; simp
          obtain ⟨hlt, hget⟩ := List.getElem?_eq_some_iff.mp hb
          simpa using congrArg Fin.val hget
        have hget : (List.finRange u.size)[c]? = before[c]? := by
          rw [hsplit]; exact List.getElem?_append_left (by omega)
        rw [List.getElem?_eq_getElem (by simpa using hc)] at hget
        exact List.mem_of_getElem? (hget.symm.trans (by simp))
      have hnone := hbefore _ hmem
      rw [hf.code, hf.start_eq] at hnone
      have := Defs.blockFlaw?_none hnone hat'
      rw [← hf.code, List.findSome?_eq_none_iff] at this
      exact (hf.regFlaw?_none hu (b := ⟨c, hc⟩)).mp (this r' hr')
    · have := hfirst l hl inst' hat'
      rw [List.findSome?_eq_none_iff] at this
      exact (hf.regFlaw?_none hu).mp (this r' hr')

/-- **Where nothing is reported, every read is supplied.** -/
theorem IsFlow.readFlaw?_none (hf : u.IsFlow f) (hu : u.Structured) (h : f.readFlaw? = none) {b k : Nat} {inst : Inst}
    (hat : u.At b k inst) {r : Reg} (hr : r ∈ inst.reads) : u.Supplied b k r := by
  have hnone := List.findSome?_eq_none_iff.mp h ⟨b, hat.block_lt⟩ (List.mem_finRange _)
  rw [hf.code, hf.start_eq] at hnone
  have := Defs.blockFlaw?_none hnone hat
  rw [← hf.code, List.findSome?_eq_none_iff] at this
  exact (hf.regFlaw?_none hu (b := ⟨b, hat.block_lt⟩)).mp (this r hr)

/-! ## Validation -/

/-- Validation of a unit without flaws looks at its reads. -/
theorem Structured.validate_eq (hu : u.Structured) : ∃ f, u.IsFlow f ∧ u.validate =
    match f.readFlaw? with
    | some r => .error (.rejected r)
    | none => .ok () := by
  obtain ⟨f, hflow, hf⟩ := hu.exists_flow
  refine ⟨f, hf, ?_⟩
  have hnone : u.structureFlaw? = none := by
    cases h : u.structureFlaw? with
    | none => rfl
    | some r =>
      obtain ⟨i, hi, _⟩ := structureFlaw?_some h
      exact absurd hi (hu i r)
  cases h : f.readFlaw? with
  | none => simp only [validate, hnone, checkDefs, hflow, h]
  | some r => simp only [validate, hnone, checkDefs, hflow, h]

/-- A valid unit has no flaws. -/
theorem structured_of_valid (hv : u.validate = .ok ()) : u.Structured := by
  apply structureFlaw?_none
  unfold validate at hv
  split at hv
  · cases hv
  · assumption

/-- Every read of a valid unit is supplied. -/
theorem supplied_of_valid (hv : u.validate = .ok ()) {b k : Nat} {inst : Inst} (hat : u.At b k inst) {r : Reg}
    (hr : r ∈ inst.reads) : u.Supplied b k r := by
  have hu := structured_of_valid hv
  obtain ⟨f, hf, heq⟩ := hu.validate_eq
  rw [hv] at heq
  cases h : f.readFlaw? with
  | some rej => rw [h] at heq; cases heq
  | none => exact hf.readFlaw?_none hu h hat hr

/-- A unit without flaws is valid if every read is supplied. -/
theorem Structured.validate_ok (hu : u.Structured)
    (hall : ∀ b k inst, u.At b k inst → ∀ r ∈ inst.reads, u.Supplied b k r) : u.validate = .ok () := by
  obtain ⟨f, hf, heq⟩ := hu.validate_eq
  cases h : f.readFlaw? with
  | none => rw [heq, h]
  | some rej =>
    obtain ⟨b, k, r, ⟨inst, before, after, hat, hreads, hunsupplied, -⟩, -⟩ := hf.readFlaw?_some hu h
    exact absurd (hall b k inst hat r (by rw [hreads]; simp)) hunsupplied

/-- **Validation is exact.** It reports a flaw of the first flawed instruction. If no instruction is flawed, it accepts
the unit just if every read is supplied on every path, and otherwise reports the first read that is not. -/
theorem validate_exact (u : CompiledUnit) :
    (¬ u.Structured → ∃ i rej, u.Flawed i rej ∧ (∀ j < i, ∀ rej', ¬ u.Flawed j rej') ∧
      u.validate = .error (.rejected rej)) ∧
    (u.Structured →
      (u.validate = .ok () ↔ ∀ b k inst, u.At b k inst → ∀ r ∈ inst.reads, u.Supplied b k r) ∧
      (u.validate ≠ .ok () → ∃ b k r rej, u.FirstUnsupplied b k r ∧ u.ReadReport b k r rej ∧
        u.validate = .error (.rejected rej))) := by
  constructor
  · intro hu
    cases h : u.structureFlaw? with
    | none => exact absurd (structureFlaw?_none h) hu
    | some rej =>
      obtain ⟨i, hi, hfirst⟩ := structureFlaw?_some h
      exact ⟨i, rej, hi, hfirst, by simp only [validate, h]⟩
  · intro hu
    obtain ⟨f, hf, heq⟩ := hu.validate_eq
    refine ⟨⟨fun hv b k inst hat r hr => supplied_of_valid hv hat hr, fun hall => ?_⟩, fun hne => ?_⟩
    · cases h : f.readFlaw? with
      | none => rw [heq, h]
      | some rej =>
        obtain ⟨b, k, r, ⟨inst, before, after, hat, hreads, hunsupplied, _⟩, _⟩ := hf.readFlaw?_some hu h
        exact absurd (hall b k inst hat r (by rw [hreads]; simp)) hunsupplied
    · cases h : f.readFlaw? with
      | none => rw [heq, h] at hne; exact absurd rfl hne
      | some rej =>
        obtain ⟨b, k, r, hfirst, hreport⟩ := hf.readFlaw?_some hu h
        exact ⟨b, k, r, rej, hfirst, hreport, by rw [heq, h]⟩

end CompiledUnit

end ChillHints
