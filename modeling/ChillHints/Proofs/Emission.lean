import ChillHints.Proofs.Chillable
import ChillHints.Proofs.Indexing

/-!
# The hints that are chosen

An allocator asks a table about a register. If the hints of the table ascend and are well formed, the search by halving
finds the hint of an instruction if there is one (`hint?_eq_some_iff`), and in it the entry about the register's group
if that is listed (`chillable_eq_some_iff`).

The hints that follow from next uses are those of the rows, in their order, without the empty ones
(`mem_hints_emit_iff`). They ascend and are well formed, so an allocator is told of a register just what the row of the
instruction has for its group, through whichever view it asks (`chillable_emit_iff`).

For the same reason the chosen hints can be written to a container. Together with the checks before, which leave nothing
to look up that does not exist, no step from a unit to its container breaks off, nor does it where every number that
becomes an index is checked on the way (`pipeline_ok`).
-/

namespace ChillHints

/-! ## The search for a hint -/

namespace HintTable

variable {t : HintTable} {hints : List Hint} {h : Hint} {i : Nat}

/-- Where hints ascend, an earlier one is about an earlier instruction. -/
theorem lt_iff_iidx_lt (hasc : hints.Pairwise fun a b => a.iidx < b.iidx) {j : Nat} {a b : Hint}
    (ha : hints[i]? = some a) (hb : hints[j]? = some b) : i < j ↔ a.iidx < b.iidx := by
  obtain ⟨hi, rfl⟩ := List.getElem?_eq_some_iff.mp ha
  obtain ⟨hj, rfl⟩ := List.getElem?_eq_some_iff.mp hb
  have hlt := List.pairwise_iff_getElem.mp hasc
  rcases Nat.lt_trichotomy i j with hij | rfl | hij
  · exact ⟨fun _ => hlt i j hi hj hij, fun _ => hij⟩
  · simp
  · have := hlt j i hj hi hij
    omega

/-- A hint that lies between the bounds is found. -/
theorem bisect_of_getElem? (hasc : hints.Pairwise fun a b => a.iidx < b.iidx) {m : Nat} (hm : hints[m]? = some h)
    {fuel lo hi : Nat} (hlo : lo ≤ m) (hhi : m < hi) (hlen : hi ≤ hints.length) (hfuel : hi - lo ≤ fuel) :
    bisect hints h.iidx fuel lo hi = some h := by
  induction fuel generalizing lo hi with
  | zero => omega
  | succ fuel ih =>
    have hmid : (lo + hi) / 2 < hints.length := by omega
    obtain ⟨x, hx⟩ : ∃ x, hints[(lo + hi) / 2]? = some x := ⟨_, List.getElem?_eq_getElem hmid⟩
    have hbelow := lt_iff_iidx_lt hasc hx hm
    have habove := lt_iff_iidx_lt hasc hm hx
    rw [bisect, if_pos (by omega)]
    simp only [hx]
    split
    · -- no other hint is about this instruction
      have hsame : m = (lo + hi) / 2 := by omega
      rw [← hsame, hm] at hx
      exact hx.symm
    · split
      · exact ih (by omega) hhi hlen (by omega)
      · exact ih hlo (by omega) (by omega) (by omega)

/-- **The search finds the hint of an instruction, and nothing else.** -/
theorem hint?_eq_some_iff (hasc : t.hints.Pairwise fun a b => a.iidx < b.iidx) :
    t.hint? i = some h ↔ h ∈ t.hints ∧ h.iidx = i := by
  refine ⟨hint?_some, ?_⟩
  rintro ⟨hmem, rfl⟩
  obtain ⟨m, hm⟩ := List.getElem?_of_mem hmem
  have hlt := (List.getElem?_eq_some_iff.mp hm).1
  exact bisect_of_getElem? hasc hm (Nat.zero_le m) hlt (Nat.le_refl _) (Nat.le_refl _)

end HintTable

/-! ## The search for an entry -/

/-- The members of a group have it as their group. -/
theorem Group.group?_of_mem_members : ∀ {g : Group}, ∀ r ∈ g.members, r.group? = some g := by
  decide

/-- An entry is about the register that stands for a group only if it is its own. -/
theorem HintEntry.register_of_covers {x : HintEntry} {g : Group} {c : Reg} (hc : g.members.head? = some c)
    (hx : x.covers c = true) : x.register = c := by
  obtain ⟨cls, idx, next⟩ := x
  unfold Group.members at hc
  split at hc
  · cases hc
    simp_all [covers, register]
  · cases hc
    simp_all [covers, register]

/-- **What a table answers.** A register can be chilled just if the hint of the instruction has an entry about its
group. -/
theorem HintTable.chillable_eq_some_iff {t : HintTable} (hasc : t.hints.Pairwise fun a b => a.iidx < b.iidx)
    (hwf : ∀ h ∈ t.hints, h.WellFormed t.edition) {i : Nat} {r : Reg} {nu : NextUse} :
    t.chillable i r = some nu ↔ ∃ h ∈ t.hints, h.iidx = i ∧ ∃ x ∈ h.entries,
      x.register.group? = r.group? ∧ x.nextUse = nu := by
  constructor
  · intro hr
    unfold chillable at hr
    split at hr
    · rename_i g _ hg
      simp only [Option.bind_eq_bind, Option.bind_eq_some_iff, Option.pure_def, Option.some.injEq] at hr
      obtain ⟨c, hc, h, hh, x, hx, rfl⟩ := hr
      obtain ⟨hmem, hi⟩ := (hint?_eq_some_iff hasc).mp hh
      have hxmem := List.mem_of_find?_eq_some hx
      have hcovers : x.covers c = true := List.find?_some (p := fun y : HintEntry => y.covers c) hx
      refine ⟨h, hmem, hi, x, hxmem, ?_, rfl⟩
      rw [HintEntry.register_of_covers hc hcovers, Group.group?_of_mem_members c (List.mem_of_head? hc), hg]
    · cases hr
  · rintro ⟨h, hmem, rfl, x, hx, hgroup, rfl⟩
    obtain ⟨-, g, hg, hhead⟩ := ((hwf h hmem).inEdition x hx).register_eq
    rw [hg] at hgroup
    have hcheck := (t.edition.check_eq_ok_iff r).mpr ⟨g, hgroup.symm⟩
    have hh := (hint?_eq_some_iff hasc).mpr ⟨hmem, rfl⟩
    simp only [chillable, hcheck, ← hgroup, hhead, hh, (hwf h hmem).find?_register hx, Option.bind_eq_bind,
      Option.bind_some, Option.pure_def]

/-! ## The chosen hints -/

namespace UseRow

variable {row : UseRow} {d : Nat} {g : Group} {x : HintEntry}

/-- The entry of a group is about the registers of the group. -/
theorem group?_register_of_entry? (hx : row.entry? d g = some x) : x.register.group? = some g := by
  obtain ⟨-, -, hsp, rfl⟩ := entry?_eq_some_iff.mp hx
  exact Group.group?_gpIdx hsp

/-- What is listed ascends and is in the edition. -/
theorem wellFormed_entries (e : Edition) {i : Nat} (hne : row.entries d ≠ []) :
    Hint.WellFormed e ⟨i, row.entries d⟩ where
  nonempty := hne
  ascending := by
    have hkey : ∀ {g x}, row.entry? d g = some x → x.key = g := by
      intro g x hx
      obtain ⟨-, -, -, rfl⟩ := entry?_eq_some_iff.mp hx
      have := g.isLt
      simp only [HintEntry.key, RegClass.code, UInt8.toNat_ofNat', UInt8.toNat_zero]
      omega
    have hasc : Group.allGp.Pairwise (· < ·) := by decide
    refine HintEntry.pairwise_precedes.mpr (hasc.filterMap _ fun g g' hlt x hx y hy => ?_)
    rw [hkey hx, hkey hy]
    exact hlt
  inEdition x hx := by
    obtain ⟨g, hx⟩ := mem_entries_iff.mp hx
    obtain ⟨-, -, hsp, rfl⟩ := entry?_eq_some_iff.mp hx
    cases e
    have : g.val ≠ 15 := fun h => hsp (Fin.ext h)
    have := g.isLt
    simp [HintEntry.InEdition, Edition.numGp]
    omega

end UseRow

namespace NextUseTable

variable {t : NextUseTable} {d : Nat} {h : Hint}

theorem ascending_emit (t : NextUseTable) (d : Nat) : (t.emit d).hints.Pairwise fun a b => a.iidx < b.iidx := by
  have hrows : t.rows.zipIdx.Pairwise fun a b => a.2 < b.2 := by
    rw [← List.pairwise_map, List.zipIdx_map_snd]
    exact List.pairwise_lt_range'
  refine List.Pairwise.filter _ (List.pairwise_map.mpr ?_)
  exact hrows

theorem below_emit (hh : h ∈ (t.emit d).hints) : h.iidx < (t.emit d).instsLen := by
  obtain ⟨row, hrow, -⟩ := mem_hints_emit_iff.mp hh
  exact (List.getElem?_eq_some_iff.mp hrow).1

theorem wellFormed_of_mem_emit (hh : h ∈ (t.emit d).hints) : h.WellFormed (t.emit d).edition := by
  obtain ⟨i, xs⟩ := h
  obtain ⟨row, -, rfl, hne⟩ := mem_hints_emit_iff.mp hh
  exact UseRow.wellFormed_entries _ hne

/-- **The chosen hints are well formed**, if there are not too many instructions for a container. -/
theorem wellFormed_emit (hlen : t.instsLen < 2 ^ 32) (d : Nat) : (t.emit d).WellFormed :=
  ⟨hlen, t.ascending_emit d, fun _ => below_emit, fun _ => wellFormed_of_mem_emit⟩

/-- **What the chosen hints answer** is what the row of the instruction has for the group of the register. -/
theorem chillable_emit {i : Nat} {r : Reg} {nu : NextUse} : (t.emit d).chillable i r = some nu ↔
    ∃ row g, t.rows[i]? = some row ∧ r.group? = some g ∧ g ≠ Group.sp ∧ row.holds.get g = true ∧
      row.uses.get g = nu ∧ nu.atLeast d = true := by
  rw [HintTable.chillable_eq_some_iff (t.ascending_emit d) fun _ => wellFormed_of_mem_emit]
  constructor
  · rintro ⟨h, hh, rfl, x, hx, hgroup, rfl⟩
    obtain ⟨row, hrow, hentries, -⟩ := mem_hints_emit_iff.mp hh
    rw [hentries] at hx
    obtain ⟨g, hg⟩ := UseRow.mem_entries_iff.mp hx
    rw [UseRow.group?_register_of_entry? hg] at hgroup
    obtain ⟨hholds, hleast, hsp, rfl⟩ := UseRow.entry?_eq_some_iff.mp hg
    exact ⟨row, g, hrow, hgroup.symm, hsp, hholds, rfl, hleast⟩
  · rintro ⟨row, g, hrow, hgroup, hsp, hholds, rfl, hleast⟩
    have hx := UseRow.entry?_eq_some_iff.mpr ⟨hholds, hleast, hsp, rfl⟩
    have hmem := UseRow.mem_entries_iff.mpr ⟨g, hx⟩
    refine ⟨⟨i, row.entries d⟩, mem_hints_emit_iff.mpr ⟨row, hrow, rfl, List.ne_nil_of_mem hmem⟩, rfl, _, hmem, ?_, rfl⟩
    rw [UseRow.group?_register_of_entry? hx, hgroup]

/-! ## Looking up a table -/

variable {i : Nat} {g : Group}

theorem nextUse_eq_ok_iff {nu : NextUse} :
    t.nextUse i g = .ok nu ↔ ∃ row, t.rows[i]? = some row ∧ row.uses.get g = nu := by
  unfold nextUse
  rw [dif_pos g.isLt]
  cases t.rows[i]? <;> simp

theorem mayHold_eq_ok_iff {holds : Bool} :
    t.mayHold i g = .ok holds ↔ ∃ row, t.rows[i]? = some row ∧ row.holds.get g = holds := by
  have hg : Group.ofNat g = .ok g := dif_pos g.isLt
  unfold mayHold
  cases t.rows[i]? with
  | none => simp
  | some row => simp [hg, Except.map]

end NextUseTable

/-- At least `d` instructions away, or never. -/
theorem NextUse.atLeast_iff {nu : NextUse} {d : Nat} :
    nu.atLeast d = true ↔ nu = .never ∨ ∃ dist, nu.dist? = some dist ∧ d ≤ dist := by
  cases nu <;> simp [atLeast, dist?]

theorem Reg.group?_eq_some_iff {r : Reg} {g : Group} (hsp : g ≠ Group.sp) :
    r.group? = some g ↔ ∃ n w, r = .gp n w ∧ n.toNat = g := by
  cases r with
  | sp => simp [Reg.group?, Ne.symm hsp]
  | gp n w =>
    have := g.isLt
    have : g.val ≠ 15 := fun h => hsp (Fin.ext h)
    simp only [Reg.group?, Option.dite_none_right_eq_some, Option.some.injEq, Fin.ext_iff, Reg.gp.injEq]
    constructor
    · rintro ⟨-, h⟩
      exact ⟨n, w, ⟨rfl, rfl⟩, h⟩
    · rintro ⟨_, _, ⟨rfl, rfl⟩, h⟩
      exact ⟨by omega, h⟩

/-- What the chosen hints answer, by the number of the register and what the table of next uses answers about it. -/
theorem NextUseTable.chillable_emit_gp {t : NextUseTable} {d i : Nat} {r : Reg} {nu : NextUse} :
    (t.emit d).chillable i r = some nu ↔ i < t.instsLen ∧ ∃ n w, r = .gp n w ∧ n.toNat < 15 ∧
      t.mayHold i n.toNat = .ok true ∧ t.nextUse i n.toNat = .ok nu ∧
      (nu = .never ∨ ∃ dist, nu.dist? = some dist ∧ d ≤ dist) := by
  rw [chillable_emit]
  constructor
  · rintro ⟨row, g, hrow, hgroup, hsp, hholds, huses, hleast⟩
    obtain ⟨n, w, rfl, hn⟩ := (Reg.group?_eq_some_iff hsp).mp hgroup
    have hg : g.val ≠ 15 := fun h => hsp (Fin.ext h)
    refine ⟨(List.getElem?_eq_some_iff.mp hrow).1, n, w, rfl, by have := g.isLt; omega, ?_⟩
    rw [hn]
    exact ⟨mayHold_eq_ok_iff.mpr ⟨row, hrow, hholds⟩, nextUse_eq_ok_iff.mpr ⟨row, hrow, huses⟩,
      NextUse.atLeast_iff.mp hleast⟩
  · rintro ⟨-, n, w, rfl, hn, hholds, huses, hleast⟩
    have hsp : (⟨n.toNat, by omega⟩ : Group) ≠ Group.sp := fun h => by
      have : n.toNat = 15 := congrArg Fin.val h
      omega
    obtain ⟨row, hrow, hholds⟩ := mayHold_eq_ok_iff (g := ⟨n.toNat, by omega⟩).mp hholds
    obtain ⟨row', hrow', huses⟩ := nextUse_eq_ok_iff (g := ⟨n.toNat, by omega⟩).mp huses
    cases hrow.symm.trans hrow'
    exact ⟨row, _, hrow, (Reg.group?_eq_some_iff hsp).mpr ⟨n, w, rfl, rfl⟩, hsp, hholds, huses,
      NextUse.atLeast_iff.mpr hleast⟩

namespace CompiledUnit

variable {u : CompiledUnit}

/-- Validation gives an answer: it does not look up anything that does not exist. -/
theorem validate_ok_or_rejected (u : CompiledUnit) : u.validate = .ok () ∨ ∃ r, u.validate = .error (.rejected r) := by
  cases hflaw : u.structureFlaw? with
  | some r => exact Or.inr ⟨r, by simp only [validate, hflaw]⟩
  | none =>
    obtain ⟨f, -, heq⟩ := (structureFlaw?_none hflaw).validate_eq
    cases hread : f.readFlaw? with
    | some r => exact Or.inr ⟨r, by rw [heq, hread]⟩
    | none => exact Or.inl (by rw [heq, hread])

/-- A valid unit has a table, with a row for each instruction. -/
theorem exists_scan (hv : u.validate = .ok ()) :
    ∃ t, u.scan = .ok t ∧ u.analyse = .ok t ∧ t.instsLen = u.insts.length := by
  obtain ⟨-, f, hflow, hf, htable⟩ := exists_flow_of_valid hv
  refine ⟨_, ?_, htable, hf.length_rows⟩
  rw [scan, hflow]
  rfl

/-- **The chosen hints are exactly the specified ones.** In the hints of a valid unit, a register can be chilled after
an instruction just if it is a view of a general purpose number, may hold a value there, and is next used never or not
before the least distance; and it can until that use. All views of a number have the same answer, and neither the stack
pointer nor a register that is not in the edition can be chilled. -/
theorem chillable_emit_iff (u : CompiledUnit) (hv : u.validate = .ok ()) : ∃ t, u.analyse = .ok t ∧
    (∀ d i r nu, (t.emit d).chillable i r = some nu ↔ i < u.insts.length ∧ ∃ n w, r = .gp n w ∧ n.toNat < 15 ∧
      t.mayHold i n.toNat = .ok true ∧ t.nextUse i n.toNat = .ok nu ∧
      (nu = .never ∨ ∃ dist, nu.dist? = some dist ∧ d ≤ dist)) ∧
    (∀ d i n w w', (t.emit d).chillable i (.gp n w) = (t.emit d).chillable i (.gp n w')) ∧
    ∀ d i r, (r = .sp ∨ ∃ n w, r = .gp n w ∧ 15 ≤ n.toNat) → (t.emit d).chillable i r = none := by
  obtain ⟨t, -, htable, hlen⟩ := exists_scan hv
  rw [← hlen]
  refine ⟨t, htable, fun d i r nu => NextUseTable.chillable_emit_gp, fun d i n w w' => Option.ext fun nu => ?_,
    fun d i r hr => ?_⟩
  · rw [NextUseTable.chillable_emit_gp, NextUseTable.chillable_emit_gp]
    simp
  · rw [Option.eq_none_iff_forall_ne_some]
    rintro nu hnu
    obtain ⟨-, n, w, rfl, hn, -⟩ := NextUseTable.chillable_emit_gp.mp hnu
    rcases hr with hr | ⟨n', w', hr, hn'⟩
    · cases hr
    · cases hr
      omega

/-- The hints of the loop of `countdown`, for every least distance. -/
theorem countdown_chillable_emit : countdown.validate = .ok () ∧ ∃ t, countdown.analyse = .ok t ∧
    (∀ d i r nu, (t.emit d).chillable i r = some nu ↔ i < countdown.insts.length ∧ ∃ n w, r = .gp n w ∧ n.toNat < 15 ∧
      t.mayHold i n.toNat = .ok true ∧ t.nextUse i n.toNat = .ok nu ∧
      (nu = .never ∨ ∃ dist, nu.dist? = some dist ∧ d ≤ dist)) ∧
    (∀ d i n w w', (t.emit d).chillable i (.gp n w) = (t.emit d).chillable i (.gp n w')) ∧
    ∀ d i r, (r = .sp ∨ ∃ n w, r = .gp n w ∧ 15 ≤ n.toNat) → (t.emit d).chillable i r = none :=
  ⟨by decide +kernel, chillable_emit_iff countdown (by decide +kernel)⟩

/-- **No step from a unit to its container breaks off.** A unit is valid or rejected, whatever its registers, targets
and terminators are. The table of a valid unit can be asked about every instruction and group, and for every least
distance its hints ascend, are about instructions of the unit, and can be written. No number of an instruction or a
block, and none that follows the last, is too large for an index, so that no step breaks off either if it checks each of
these numbers where it becomes one. -/
theorem pipeline_ok (u : CompiledUnit) (hinsts : u.insts.length < 2 ^ 32 - 1) (hblocks : u.size < 2 ^ 32 - 1) :
    (∀ i ≤ u.insts.length, indexUpTo 0xffffffff i = .ok i) ∧ (∀ b ≤ u.size, indexUpTo 0xffffffff b = .ok b) ∧
    u.validateIndexed = u.validate ∧ (u.validate = .ok () ∨ ∃ r, u.validate = .error (.rejected r)) ∧
    (u.validate = .ok () → ∃ t, u.scanIndexed = .ok t ∧ u.scan = .ok t ∧ t.instsLen = u.insts.length ∧
      (∀ i < u.insts.length, ∀ g < 16, (∃ nu, t.nextUse i g = .ok nu) ∧ ∃ holds, t.mayHold i g = .ok holds) ∧
      ∀ d, t.emitIndexed d = .ok (t.emit d) ∧ (t.emit d).hints.Pairwise (fun a b => a.iidx < b.iidx) ∧
        (∀ h ∈ (t.emit d).hints, h.iidx < (t.emit d).instsLen) ∧ ∃ bytes, (t.emit d).encode = .ok bytes) := by
  have hi : u.insts.length ≤ 0xffffffff := by omega
  have hb : u.size ≤ 0xffffffff := by omega
  refine ⟨fun i hle => indexed_of_le (hle.trans hi), fun b hle => indexed_of_le (hle.trans hb),
    validateIndexed_eq hi hb, u.validate_ok_or_rejected, fun hv => ?_⟩
  obtain ⟨t, hscan, -, hlen⟩ := exists_scan hv
  refine ⟨t, scanIndexed_eq hi hb hscan hlen, hscan, hlen, fun i hi g hg => ?_,
    fun d => ⟨NextUseTable.emitIndexed_eq (hlen.trans_le hi) d, t.ascending_emit d, fun _ => NextUseTable.below_emit,
      ?_⟩⟩
  · obtain ⟨row, hrow⟩ : ∃ row, t.rows[i]? = some row := ⟨_, List.getElem?_eq_getElem (hi.trans_eq hlen.symm)⟩
    exact ⟨⟨_, NextUseTable.nextUse_eq_ok_iff (g := ⟨g, hg⟩).mpr ⟨row, hrow, rfl⟩⟩,
      ⟨_, NextUseTable.mayHold_eq_ok_iff (g := ⟨g, hg⟩).mpr ⟨row, hrow, rfl⟩⟩⟩
  · exact ⟨_, (NextUseTable.wellFormed_emit (by omega) d).encode_eq⟩

/-- The loop of `countdown` gets its container. -/
theorem countdown_pipeline : countdown.insts.length < 2 ^ 32 - 1 ∧ countdown.size < 2 ^ 32 - 1 ∧
    countdown.validate = .ok () ∧ countdown.validateIndexed = .ok () ∧ ∃ t, countdown.scan = .ok t ∧
      countdown.scanIndexed = .ok t ∧ ∀ d, ∃ bytes, (t.emit d).encode = .ok bytes := by
  have hinsts : countdown.insts.length < 2 ^ 32 - 1 := by decide
  have hblocks : countdown.size < 2 ^ 32 - 1 := by decide
  have hv : countdown.validate = .ok () := by decide +kernel
  obtain ⟨-, -, hindexed, -, hok⟩ := pipeline_ok countdown hinsts hblocks
  obtain ⟨t, hscanIndexed, hscan, -, -, hemit⟩ := hok hv
  exact ⟨hinsts, hblocks, hv, hindexed.trans hv, t, hscan, hscanIndexed, fun d => (hemit d).2.2.2⟩

end CompiledUnit

end ChillHints
