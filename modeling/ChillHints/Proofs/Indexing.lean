import ChillHints.Hint.Emit
import ChillHints.Proofs.Position
import ChillHints.Validity.Basic

/-!
# Numbers that become indices

Instructions and blocks are known by index, and an index has 32 bits. Where a unit is gone through, a number is turned
into an index again and again: the number of a block, the positions of its instructions, the position behind a
terminator, the number of the block that follows, the position of a row or a hint. Here each of these numbers is checked
where it comes up.

- `structureFlawIndexed?` looks for flaws; a terminator is misplaced if its block does not end right behind it.
- `outline` has the successors and the instructions of all blocks, which every analysis goes through.
- `rowsIndexed` and `emitIndexed` number the rows of the table and the hints.

If the instructions and the blocks can be counted, and one more of each, then no check fails, and with the checks a unit
is validated, scanned and given its hints as without them (`validateIndexed_eq`, `scanIndexed_eq`, `emitIndexed_eq`).
-/

namespace ChillHints

/-- A number as an index. -/
def indexed (n : Nat) : Except Fault Nat := indexUpTo 0xffffffff n

/-- The flaw of the instruction at `iidx`, in a block that ends at `stop`. -/
def instFlawIndexed? (e : Edition) (size stop iidx : Nat) (inst : Inst) : Except Fault (Option Rejection) := do
  if let some r := inst.operands.findSome? (operandFlaw? e iidx inst) then return some r
  if inst.isTerm then
    if (← indexed (iidx + 1)) ≠ stop then return some (.misplacedTerminator iidx)
  return inst.targets.findSome? (targetFlaw? size iidx)

namespace CompiledUnit

/-- The instructions of block `b`, each with its index. -/
def blockInstsIndexed (u : CompiledUnit) (b : Nat) : Except Fault (List (Nat × Inst)) :=
  ((u.blockAt b).zipIdx (u.start b)).mapM fun x => do return (← indexed x.2, x.1)

/-- The successors of block `b`. -/
def successorsIndexed (u : CompiledUnit) (b : Nat) : Except Fault (List Nat) :=
  match (u.blockAt b).getLast?.bind Inst.exits? with
  | some targets => .ok targets
  | none => do
    let next ← indexed (b + 1)
    return if next < u.size then [next] else []

/-- The first flaw of block `b`. -/
def blockFlawIndexed? (u : CompiledUnit) (b : Nat) : Except Fault (Option Rejection) := do
  let insts ← u.blockInstsIndexed (← indexed b)
  insts.findSomeM? fun x => instFlawIndexed? u.edition u.size (u.start b + (u.blockAt b).length) x.1 x.2

/-- The first flaw of a unit. -/
def structureFlawIndexed? (u : CompiledUnit) : Except Fault (Option Rejection) :=
  (List.range u.size).findSomeM? u.blockFlawIndexed?

/-- The successors and the instructions of each block. -/
def outline (u : CompiledUnit) : Except Fault (List (List Nat × List (Nat × Inst))) :=
  (List.range u.size).mapM fun b => do
    let b ← indexed b
    return (← u.successorsIndexed b, ← u.blockInstsIndexed b)

/-- Refuses a unit that is not valid. What has been written is found by going through the blocks. -/
def validateIndexed (u : CompiledUnit) : Except Failure Unit := do
  match ← u.structureFlawIndexed?.mapError .fault with
  | some r => .error (.rejected r)
  | none =>
    let _ ← u.outline.mapError .fault
    u.checkDefs

end CompiledUnit

namespace NextUseTable

/-- The rows, which are put into the table one after the other. -/
def rowsIndexed (rows : List UseRow) : Except Fault (List UseRow) :=
  rows.zipIdx.mapM fun x => do
    let _ ← indexed x.2
    return x.1

/-- The hints that follow from the next uses. -/
def emitIndexed (t : NextUseTable) (minDist : Nat) : Except Fault HintTable := do
  let hints ← t.rows.zipIdx.mapM fun x => do return Hint.mk (← indexed x.2) (x.1.entries minDist)
  return ⟨t.edition, t.instsLen, hints.filter fun h => !h.entries.isEmpty⟩

end NextUseTable

/-- The table of a unit that has been validated, which is found by going through the blocks. -/
def CompiledUnit.scanIndexed (u : CompiledUnit) : Except Fault NextUseTable := do
  let _ ← u.outline
  let t ← u.scan
  return { t with rows := ← NextUseTable.rowsIndexed t.rows }

/-! ## No check fails -/

theorem indexed_of_le {n : Nat} (h : n ≤ 0xffffffff) : indexed n = .ok n := if_pos h

/-- Calls that have an answer one by one have these answers one after the other. -/
theorem mapM_of_ok {α β ε : Type} {f : α → Except ε β} {g : α → β} {xs : List α} (h : ∀ x ∈ xs, f x = .ok (g x)) :
    xs.mapM f = .ok (xs.map g) := by
  induction xs with
  | nil => rfl
  | cons x xs ih =>
    obtain ⟨hx, hxs⟩ := List.forall_mem_cons.mp h
    rw [List.mapM_cons, hx, ih hxs]
    rfl

/-- Where the numbers can be indices, checking them makes no difference. -/
theorem mapM_indexed {α β : Type} (f : Nat → α → β) (xs : List α) {n : Nat} (h : n + xs.length ≤ 0xffffffff) :
    (xs.zipIdx n).mapM (fun x => do return f (← indexed x.2) x.1) = .ok ((xs.zipIdx n).map fun x => f x.2 x.1) := by
  refine mapM_of_ok fun x hx => ?_
  have hlt := List.snd_lt_add_of_mem_zipIdx hx
  exact bind_of_ok (indexed_of_le (by omega)) _

/-- A search that does not break off finds what there is. -/
theorem findSomeM?_eq {α β ε : Type} {f : α → Except ε (Option β)} {g : α → Option β} {xs : List α}
    (h : ∀ x ∈ xs, f x = .ok (g x)) : xs.findSomeM? f = .ok (xs.findSome? g) := by
  induction xs with
  | nil => rfl
  | cons x xs ih =>
    obtain ⟨hx, hxs⟩ := List.forall_mem_cons.mp h
    rw [List.findSomeM?, List.findSome?_cons, hx]
    cases g x with
    | some r => rfl
    | none => exact ih hxs

/-- An instruction is the last one of its block if the block ends right behind it. -/
theorem instFlawIndexed?_eq (e : Edition) (size stop : Nat) (inst : Inst) {iidx : Nat} (hidx : iidx + 1 ≤ 0xffffffff) :
    instFlawIndexed? e size stop iidx inst = .ok (instFlaw? e size iidx inst (decide (iidx + 1 = stop))) := by
  unfold instFlawIndexed? instFlaw?
  cases inst.operands.findSome? (operandFlaw? e iidx inst) with
  | some r => rfl
  | none =>
    cases inst.isTerm with
    | false => rfl
    | true =>
      simp only [indexed_of_le hidx, if_true, bind, Except.bind]
      by_cases hstop : iidx + 1 = stop <;> simp [hstop, pure, Except.pure]

theorem findSomeM?_instFlawIndexed? (e : Edition) (size : Nat) (insts : List Inst) {n : Nat}
    (h : n + insts.length ≤ 0xffffffff) :
    ((insts.zipIdx n).map Prod.swap).findSomeM? (fun x => instFlawIndexed? e size (n + insts.length) x.1 x.2) =
      .ok (blockFlaw? e size ((insts.zipIdx n).map Prod.swap)) := by
  induction insts generalizing n with
  | nil => rfl
  | cons inst insts ih =>
    rw [List.length_cons] at h ⊢
    have hlast : decide (n + 1 = n + (insts.length + 1)) = ((insts.zipIdx (n + 1)).map Prod.swap).isEmpty := by
      cases insts <;> simp
    have hrest := ih (n := n + 1) (by omega)
    rw [Nat.add_assoc, Nat.add_comm 1] at hrest
    rw [List.zipIdx_cons, List.map_cons, Prod.swap_prod_mk, List.findSomeM?, hrest,
      instFlawIndexed?_eq e size _ inst (by omega), hlast, blockFlaw?]
    cases instFlaw? e size n inst ((insts.zipIdx (n + 1)).map Prod.swap).isEmpty <;> rfl

namespace CompiledUnit

variable {u : CompiledUnit} {b : Nat}

theorem start_add_length_le_insts (hb : b < u.size) : u.start b + (u.blockAt b).length ≤ u.insts.length := by
  have hend : u.start u.size = u.insts.length := by rw [start, size, List.take_length, insts]
  rw [← hend]
  exact start_add_length_le hb

theorem blockInstsIndexed_eq (hinsts : u.insts.length ≤ 0xffffffff) (hb : b < u.size) :
    u.blockInstsIndexed b = .ok (u.blockInsts b) := by
  have hle := start_add_length_le_insts hb
  rw [blockInsts_eq hb]
  exact mapM_indexed (fun i inst => (i, inst)) (u.blockAt b) (by omega)

theorem successorsIndexed_eq (hblocks : u.size ≤ 0xffffffff) (hb : b < u.size) :
    u.successorsIndexed b = .ok (u.successors b) := by
  unfold successorsIndexed successors blockAt
  cases (u.blocks.getD b []).getLast?.bind Inst.exits? with
  | some targets => rfl
  | none =>
    have hnext : indexed (b + 1) = .ok (b + 1) := indexed_of_le (by omega)
    exact bind_of_ok hnext _

/-- **No flaw is missed or found for want of an index.** -/
theorem structureFlawIndexed?_eq (hinsts : u.insts.length ≤ 0xffffffff) (hblocks : u.size ≤ 0xffffffff) :
    u.structureFlawIndexed? = .ok u.structureFlaw? := by
  have hblock : ∀ b ∈ List.range u.size,
      u.blockFlawIndexed? b = .ok (blockFlaw? u.edition u.size (u.blockInsts b)) := by
    intro b hb
    have hb := List.mem_range.mp hb
    have hle := start_add_length_le_insts hb
    rw [blockFlawIndexed?, indexed_of_le (by omega)]
    refine (bind_of_ok (blockInstsIndexed_eq hinsts hb) _).trans ?_
    rw [blockInsts_eq hb]
    exact findSomeM?_instFlawIndexed? u.edition u.size (u.blockAt b) (by omega)
  rw [structureFlawIndexed?, findSomeM?_eq hblock, structureFlaw?, ← map_blockInsts_range, List.findSome?_map]
  rfl

theorem outline_eq (hinsts : u.insts.length ≤ 0xffffffff) (hblocks : u.size ≤ 0xffffffff) :
    u.outline = .ok ((List.range u.size).map fun b => (u.successors b, u.blockInsts b)) := by
  refine mapM_of_ok fun b hb => ?_
  have hb := List.mem_range.mp hb
  rw [indexed_of_le (by omega)]
  refine (bind_of_ok (successorsIndexed_eq hblocks hb) _).trans ?_
  exact bind_of_ok (blockInstsIndexed_eq hinsts hb) _

/-- **With every index checked, the answer is the same.** -/
theorem validateIndexed_eq (hinsts : u.insts.length ≤ 0xffffffff) (hblocks : u.size ≤ 0xffffffff) :
    u.validateIndexed = u.validate := by
  rw [validateIndexed, structureFlawIndexed?_eq hinsts hblocks, outline_eq hinsts hblocks, validate]
  cases u.structureFlaw? <;> rfl

end CompiledUnit

namespace NextUseTable

theorem rowsIndexed_eq {rows : List UseRow} (h : rows.length ≤ 0xffffffff) : rowsIndexed rows = .ok rows := by
  refine (mapM_indexed (fun _ row => row) rows (by omega)).trans ?_
  rw [List.zipIdx_map_fst]

theorem emitIndexed_eq {t : NextUseTable} (h : t.instsLen ≤ 0xffffffff) (minDist : Nat) :
    t.emitIndexed minDist = .ok (t.emit minDist) :=
  bind_of_ok (mapM_indexed (fun i row => Hint.mk i (row.entries minDist)) t.rows (by unfold instsLen at h; omega)) _

end NextUseTable

/-- **With every index checked, the table is the same.** -/
theorem CompiledUnit.scanIndexed_eq {u : CompiledUnit} (hinsts : u.insts.length ≤ 0xffffffff)
    (hblocks : u.size ≤ 0xffffffff) {t : NextUseTable} (hscan : u.scan = .ok t) (hlen : t.instsLen = u.insts.length) :
    u.scanIndexed = .ok t := by
  rw [scanIndexed, outline_eq hinsts hblocks, hscan]
  exact bind_of_ok (NextUseTable.rowsIndexed_eq (Nat.le_trans (Nat.le_of_eq hlen) hinsts)) _

end ChillHints
