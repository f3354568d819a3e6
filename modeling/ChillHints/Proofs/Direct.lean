import ChillHints.Proofs.Control
import ChillHints.Proofs.Validity

/-!
# A valid unit reads only what it has written

On the store with a place for every group, a run breaks off only when it reads a place that is empty. Along a run, a
place has a value just if the last write or drop of its group, on the path that the run has taken, is a write
(`Filled`): the path is one of the unit, and in a valid unit every path to a read brings a write. So the run of a
valid unit does not break off (`ofUnit_direct_ok`).
-/

namespace ChillHints

/-! ## Instructions on the direct store -/

namespace Direct

variable {e : Edition} {step : Nat} {g : Group}

/-- A read gives what is in the place, and changes nothing. -/
theorem read_eq_ok {s s' : Direct} {v : UInt64} :
    RegisterStore.read step g s = .ok (v, s') ↔ s.values.get g = some v ∧ s' = s := by
  simp only [RegisterStore.read]
  cases s.values.get g with
  | none => simp
  | some x => simp [eq_comm]

theorem value_ok {r : Reg} {s : MachineState Direct}
    (h : ∃ g, r.group? = some g ∧ (g ≠ Group.sp → (s.regs.values.get g).isSome)) :
    ∃ v, Exec.value e step r s = .ok (v, s) := by
  cases r with
  | sp => exact ⟨s.sp, rfl⟩
  | gp i w =>
    obtain ⟨g, hg, hsome⟩ := h
    obtain ⟨v, hv⟩ := Option.isSome_iff_exists.1 (hsome (Reg.gp_group_ne_sp hg))
    exact ⟨lowBits (e.bits w) v, bind_eq_ok.2 ⟨g, Reg.group_eq_ok.2 hg,
      bind_eq_ok.2 ⟨(v, s.regs), read_eq_ok.2 ⟨hv, rfl⟩, rfl⟩⟩⟩

/-- Reads of places that are not empty have values, and change nothing. -/
theorem values_ok {rs : List Reg} {s : MachineState Direct}
    (h : ∀ r ∈ rs, ∃ g, r.group? = some g ∧ (g ≠ Group.sp → (s.regs.values.get g).isSome)) :
    ∃ vs, Exec.values e step rs s = .ok (vs, s) := by
  induction rs with
  | nil => exact ⟨[], rfl⟩
  | cons r rs ih =>
    obtain ⟨v, hv⟩ : ∃ v, Exec.value e step r s = .ok (v, s) := value_ok (h r (by simp))
    obtain ⟨vs, hvs⟩ := ih fun r' hr' => h r' (by simp [hr'])
    exact ⟨v :: vs, bind_eq_ok.2 ⟨_, hv, bind_eq_ok.2 ⟨_, hvs, rfl⟩⟩⟩

/-- A place is filled by a write and emptied by a drop. -/
theorem isSome_apply {c : Change} {s s' : Direct} {w : Option Nat} (h : c.apply e s = .ok s')
    (hw : (s.values.get g).isSome = w.isSome) :
    (s'.values.get g).isSome = (((c.operands.filter (·.ends g)).getLast?.map (·.brings e)).getD w).isSome := by
  cases c with
  | keep => cases h; exact hw
  | assign r v =>
    obtain ⟨h', hg, rfl⟩ := map_eq_ok.1 h
    rw [Reg.group_eq_ok] at hg
    by_cases heq : h' = g
    · simp [RegisterStore.write, Change.operands, Operand.ends, Operand.brings, hg, heq]
    · simp [RegisterStore.write, Change.operands, Operand.ends, hg, heq, Cells.get_put, hw]
  | discard r =>
    obtain ⟨h', hg, rfl⟩ := map_eq_ok.1 h
    rw [Reg.group_eq_ok] at hg
    by_cases heq : h' = g
    · simp [RegisterStore.discard, Change.operands, Operand.ends, Operand.brings, hg, heq]
    · simp [RegisterStore.discard, Change.operands, Operand.ends, hg, heq, Cells.get_put, hw]

end Direct

/-! ## Runs -/

namespace CompiledUnit

variable {u : CompiledUnit} {s : MachineState Direct} {b k : Nat}

/-- What is written after one more instruction of a block, by the change that the instruction makes. -/
theorem written_take_succ {g : Group} {start : Option Nat} {h : List Inst} {inst : Inst} (hat : u.At b k inst)
    (vs : List UInt64) (sp : UInt64) (mem : Memory) (hg : g ≠ Group.sp) :
    written u.edition g start (h ++ (u.blockAt b).take (k + 1)) =
      (((inst.outcome vs sp mem).change.operands.filter (·.ends g)).getLast?.map (·.brings u.edition)).getD
        (written u.edition g start (h ++ (u.blockAt b).take k)) := by
  rw [List.take_add_one, show (u.blockAt b)[k]? = some inst from hat, Option.toList_some, ← List.append_assoc,
    written_append]
  simp only [written, endings, List.flatMap_cons, List.flatMap_nil, List.append_nil, inst.ends_outcome vs sp mem hg]

/-- Some path to just before instruction `k` of block `b` has written, and not dropped since, just what has a value. -/
def Filled (u : CompiledUnit) (s : MachineState Direct) (b k : Nat) : Prop :=
  ∃ h, u.Arrives b h ∧ ∀ g, g ≠ Group.sp →
    (s.regs.values.get g).isSome = (written u.edition g none (h ++ (u.blockAt b).take k)).isSome

theorem edgewise_filled (s : MachineState Direct) : u.Edgewise (u.Filled s) := by
  rintro b k d hk hd ⟨h, harrives, hfilled⟩
  refine ⟨h ++ u.blockAt b, .edge harrives hd, fun g hg => ?_⟩
  rw [hfilled g hg, List.take_of_length_le hk, List.take_zero, List.append_nil]

/-- In a valid unit, the path of the run has written what an instruction reads, and at least as wide. -/
theorem Arrives.written_of_read (hv : u.validate = .ok ()) {h : List Inst} (harrives : u.Arrives b h) {inst : Inst}
    (hat : u.At b k inst) {r : Reg} (hr : r ∈ inst.reads) {g : Group} (hg : r.group? = some g) (hsp : g ≠ Group.sp) :
    ∃ w, written u.edition g none (h ++ (u.blockAt b).take k) = some w ∧ u.edition.bits r.width ≤ w := by
  have := supplied_of_valid hv hat hr g hg _ (.path harrives)
  rwa [onEntry, if_neg hsp] at this

/-- In a valid unit, what an instruction reads has a value. -/
theorem Filled.isSome (hv : u.validate = .ok ()) (h : u.Filled s b k) {inst : Inst} (hat : u.At b k inst) {r : Reg}
    (hr : r ∈ inst.reads) {g : Group} (hg : r.group? = some g) (hsp : g ≠ Group.sp) :
    (s.regs.values.get g).isSome := by
  obtain ⟨h, harrives, hfilled⟩ := h
  obtain ⟨w, hw, -⟩ := harrives.written_of_read hv hat hr hg hsp
  rw [hfilled g hsp, hw]
  rfl

/-- An instruction of a valid unit does not break off. -/
theorem Filled.perform (hv : u.validate = .ok ()) (step : Nat) {c : Cursor} (hc : c.Stands u k)
    (h : u.Filled s c.block k) :
    ∃ next s', Run.perform u.edition step c s = .ok (next, s') ∧ u.Filled s' c.block (k + 1) := by
  have hu := structured_of_valid hv
  obtain ⟨vs, hvs⟩ : ∃ vs, Exec.values u.edition step c.inst.reads s = .ok (vs, s) := by
    refine Direct.values_ok fun r hr => ?_
    obtain ⟨g, hg⟩ := hu.group hc.at_inst (Inst.mem_reads.1 hr)
    exact ⟨g, hg, h.isSome hv hc.at_inst hr hg⟩
  have hgroups : ∀ op ∈ (c.inst.outcome vs s.sp s.mem).change.operands, ∃ g, op.reg.group? = some g :=
    fun op hop => hu.group hc.at_inst (Inst.mem_operands_of_change hop)
  obtain ⟨regs, hregs⟩ := Change.exists_apply (e := u.edition) hgroups s.regs
  refine ⟨_, _, Run.perform_eq_ok.2 ⟨_, regs, Exec.inst_eq_ok.2 ⟨vs, s, regs, hvs, hregs, rfl, rfl⟩, rfl, rfl⟩, ?_⟩
  obtain ⟨h, harrives, hfilled⟩ := h
  refine ⟨h, harrives, fun g hg => ?_⟩
  rw [written_take_succ hc.at_inst vs s.sp s.mem hg]
  exact Direct.isSome_apply hregs (hfilled g hg)

theorem filled_start : u.Filled ⟨.empty, initialSp, [], []⟩ 0 0 :=
  ⟨[], .entry, fun g _ => by simp [Direct.empty, written_nil]⟩

/-- **The run of a valid unit does not break off** on the store with a place for every group. -/
theorem ofUnit_direct_ok (hv : u.validate = .ok ()) :
    ∃ ending s, (Run.ofUnit u Direct.empty).outcome = .ok (ending, s) := by
  refine Run.go_ok (structured_of_valid hv) edgewise_filled (fun step c k s hc h => h.perform hv step hc) ?_
  exact here_enter (edgewise_filled _) ⟨0, 0, filled_start⟩ fun _ => filled_start

end CompiledUnit

end ChillHints
