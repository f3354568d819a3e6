import ChillHints.Proofs.Pool
import ChillHints.Proofs.Position
import Mathlib.Data.List.GetD

/-!
# Blocks are ranges of one row of instructions

An arena keeps all instructions of a unit in one row, and of each block only where it begins and ends. While a unit is
built, the arena knows where the open block starts, and asserts that no number is too large for an index, that no block
ends before it starts, and that the last block ends where the row does.

- A call on a builder adds one instruction to the open block, or opens a block, or leaves the blocks alone
  (`step_cases`).
- An arena that mirrors a builder answers every call as the builder does, and mirrors it again (`Mirrors.step`), and so
  for every sequence of calls that does not run out of indices (`Mirrors.steps`). No assertion fails.
- The blocks of the unit are adjacent ranges from the start to the end of the row (`isChain_rangesFrom`), and the
  instructions of each are those that were added while it was open, at the positions that were answered
  (`blockInsts_steps`).
-/

namespace ChillHints

/-! ## Ranges -/

/-- Where the lists begin and end when they stand one behind the other, the first one at `n`. -/
def rangesFrom : Nat → List (List Inst) → List BlockRange
  | _, [] => []
  | n, x :: L => ⟨n, n + x.length⟩ :: rangesFrom (n + x.length) L

theorem rangesFrom_append (n : Nat) (L M : List (List Inst)) :
    rangesFrom n (L ++ M) = rangesFrom n L ++ rangesFrom (n + L.flatten.length) M := by
  induction L generalizing n with
  | nil => rfl
  | cons x L ih =>
    simp only [List.cons_append, rangesFrom, ih, List.flatten_cons, List.length_append, Nat.add_assoc]

theorem length_rangesFrom (n : Nat) (L : List (List Inst)) : (rangesFrom n L).length = L.length := by
  induction L generalizing n with
  | nil => rfl
  | cons x L ih => rw [rangesFrom, List.length_cons, ih, List.length_cons]

theorem getElem?_rangesFrom (n : Nat) (L : List (List Inst)) (b : Nat) : (rangesFrom n L)[b]? =
    L[b]?.map fun x => ⟨n + (L.take b).flatten.length, n + (L.take b).flatten.length + x.length⟩ := by
  induction L generalizing n b with
  | nil => rfl
  | cons x L ih =>
    cases b with
    | zero => simp [rangesFrom]
    | succ b =>
      simp only [rangesFrom, List.getElem?_cons_succ, ih, List.take_succ_cons, List.flatten_cons, List.length_append,
        Nat.add_assoc]

/-- Each range ends where the next one starts. -/
theorem isChain_rangesFrom (n : Nat) (L : List (List Inst)) :
    (rangesFrom n L).IsChain fun r s => r.stop = s.start := by
  induction L generalizing n with
  | nil => exact .nil
  | cons x L ih =>
    cases L with
    | nil => exact .singleton _
    | cons y L => exact .cons_cons rfl (ih (n + x.length))

/-- The first range starts where the lists do. -/
theorem head?_rangesFrom (n : Nat) {L : List (List Inst)} (h : L ≠ []) :
    (rangesFrom n L).head?.map BlockRange.start = some n := by
  cases L with
  | nil => exact absurd rfl h
  | cons x L => rfl

/-- The last range ends with the lists. -/
theorem getLast?_rangesFrom (n : Nat) (L : List (List Inst)) (x : List Inst) :
    (rangesFrom n (L ++ [x])).getLast? = some ⟨n + L.flatten.length, n + (L ++ [x]).flatten.length⟩ := by
  rw [rangesFrom_append, rangesFrom, rangesFrom, List.getLast?_concat]
  simp [Nat.add_assoc]

/-- What stands in a range are the elements of the inner list. -/
theorem take_drop_flatten (L : List (List Inst)) (b : Nat) :
    (L.flatten.drop (L.take b).flatten.length).take (L.getD b []).length = L.getD b [] := by
  induction L generalizing b with
  | nil => simp
  | cons x L ih =>
    cases b with
    | zero => simp
    | succ b =>
      simp only [List.take_succ_cons, List.flatten_cons, List.length_append, List.getD_cons_succ]
      rw [← List.drop_drop, List.drop_left, ih]

/-- Where the blocks of a unit are. -/
theorem CompiledUnit.ranges_eq (u : CompiledUnit) : u.ranges = rangesFrom 0 u.blocks := by
  apply List.ext_getElem?
  intro b
  rw [getElem?_rangesFrom, ranges, List.getElem?_map, List.getElem?_zipIdx]
  simp only [Nat.zero_add, Option.map_map]
  rfl

/-! ## Steps of building -/

/-- A call on a builder, or the question which block is open. -/
inductive BuildStep where
  | call (c : Builder.Call)
  | currentBlock

namespace BuildStep

/-- The instruction that is added. -/
def inst? : BuildStep → Option Inst
  | call (.push i) => some i
  | call (.dropReg r) => some (.drop r)
  | _ => none

/-- Is a block opened? -/
def opens : BuildStep → Bool
  | call .startBlock => true
  | _ => false

end BuildStep

/-- An instruction that was added: the block that was open, the position that was answered, and the instruction. -/
structure Addition where
  block : Nat
  iidx : Nat
  inst : Inst
deriving DecidableEq, Repr

/-- The instruction with its position. -/
def Addition.numbered (x : Addition) : Nat × Inst := (x.iidx, x.inst)

namespace Builder

variable {b : Builder}

/-- Makes a step. The answer is the position of an added instruction or the number of the block that is open then; a
request for a register is answered otherwise. -/
def step (b : Builder) : BuildStep → Option Nat × Builder
  | .call (.push i) => (some b.nextIdx, (b.call (.push i)).2)
  | .call (.dropReg r) => (some b.nextIdx, (b.call (.dropReg r)).2)
  | .call .startBlock => (some b.startBlock.currentBlock, (b.call .startBlock).2)
  | .call (.allocReg w) => (none, (b.call (.allocReg w)).2)
  | .currentBlock => (some b.currentBlock, b)

/-- Makes steps one after the other. -/
def steps (b : Builder) : List BuildStep → List (Option Nat) × Builder
  | [] => ([], b)
  | x :: xs => ((b.step x).1 :: ((b.step x).2.steps xs).1, ((b.step x).2.steps xs).2)

/-- What a step adds. -/
def addition? (b : Builder) (x : BuildStep) : Option Addition :=
  match x.inst?, (b.step x).1 with
  | some i, some iidx => some ⟨b.currentBlock, iidx, i⟩
  | _, _ => none

/-- What steps add, first to last. -/
def additions (b : Builder) : List BuildStep → List Addition
  | [] => []
  | x :: xs => (b.addition? x).toList ++ (b.step x).2.additions xs

/-- What a step does to the blocks. -/
inductive StepCase (b : Builder) (x : BuildStep) : Prop
  /-- An instruction is added to the open block. -/
  | adds (i : Inst) : x.inst? = some i → x.opens = false → (b.step x).1 = some b.nextIdx →
      (b.step x).2.closed = b.closed → (b.step x).2.current = b.current ++ [i] → StepCase b x
  /-- The open block is closed and the next one is opened. -/
  | opens : x.inst? = none → x.opens = true → (b.step x).1 = some (b.currentBlock + 1) →
      (b.step x).2.closed = b.closed ++ [b.current] → (b.step x).2.current = [] → StepCase b x
  /-- The blocks are left alone. -/
  | keeps : x.inst? = none → x.opens = false → (b.step x).2.closed = b.closed → (b.step x).2.current = b.current →
      StepCase b x

/-- **There is nothing else that a step does.** -/
theorem step_cases (b : Builder) (x : BuildStep) : b.StepCase x := by
  cases x with
  | currentBlock => exact .keeps rfl rfl rfl rfl
  | call c =>
    cases c with
    | push i => exact .adds i rfl rfl rfl rfl rfl
    | dropReg r => exact .adds (.drop r) rfl rfl rfl rfl rfl
    | startBlock => exact .opens rfl rfl (by simp [step, startBlock, currentBlock]) rfl rfl
    | allocReg w =>
      have hstep : (b.step (.call (.allocReg w))).2 = { b with pool := (b.pool.call (.alloc w)).2 } := by
        rw [step, call_allocReg]
      exact .keeps rfl rfl (by rw [hstep]) (by rw [hstep])

theorem addition?_eq (b : Builder) (x : BuildStep) :
    b.addition? x = x.inst?.map fun i => ⟨b.currentBlock, b.nextIdx, i⟩ := by
  unfold addition?
  cases b.step_cases x with
  | adds i hinst _ hanswer _ _ => simp only [hinst, hanswer, Option.map_some]
  | opens hinst _ _ _ _ => simp only [hinst, Option.map_none]
  | keeps hinst _ _ _ => simp only [hinst, Option.map_none]

/-- The position of the next instruction after a step. -/
theorem nextIdx_step (b : Builder) (x : BuildStep) :
    (b.step x).2.nextIdx = b.nextIdx + if x.inst?.isSome then 1 else 0 := by
  unfold nextIdx
  cases b.step_cases x with
  | adds i hinst _ _ hclosed hcurrent => simp [hinst, hclosed, hcurrent, Nat.add_assoc]
  | opens hinst _ _ hclosed hcurrent => simp [hinst, hclosed, hcurrent]
  | keeps hinst _ hclosed hcurrent => simp [hinst, hclosed, hcurrent]

/-- The number of the open block after a step. -/
theorem currentBlock_step (b : Builder) (x : BuildStep) :
    (b.step x).2.currentBlock = b.currentBlock + if x.opens then 1 else 0 := by
  unfold currentBlock
  cases b.step_cases x with
  | adds i _ hopens _ hclosed _ => simp [hopens, hclosed]
  | opens _ hopens _ hclosed _ => simp [hopens, hclosed]
  | keeps _ hopens hclosed _ => simp [hopens, hclosed]

/-- The position of the next instruction tells how many were added. -/
theorem nextIdx_steps (b : Builder) (xs : List BuildStep) :
    (b.steps xs).2.nextIdx = b.nextIdx + xs.countP (·.inst?.isSome) := by
  induction xs generalizing b with
  | nil => rfl
  | cons x xs ih =>
    rw [steps, ih, nextIdx_step, List.countP_cons]
    omega

/-- The number of the open block tells how many were opened. -/
theorem currentBlock_steps (b : Builder) (xs : List BuildStep) :
    (b.steps xs).2.currentBlock = b.currentBlock + xs.countP BuildStep.opens := by
  induction xs generalizing b with
  | nil => rfl
  | cons x xs ih =>
    rw [steps, ih, currentBlock_step, List.countP_cons]
    omega

/-! ## Where added instructions go -/

theorem numbered_build (b : Builder) : b.build.numbered =
    numberFrom 0 b.closed ++ [(b.current.zipIdx b.closed.flatten.length).map Prod.swap] := by
  rw [CompiledUnit.numbered, build, numberFrom_append, Nat.zero_add]
  rfl

/-- A block, by its number: a closed one, the open one, or none. -/
theorem blockInsts_build (b : Builder) (c : Nat) : b.build.blockInsts c =
    if c = b.currentBlock then (b.current.zipIdx b.closed.flatten.length).map Prod.swap
    else (numberFrom 0 b.closed).getD c [] := by
  have hlen : (numberFrom 0 b.closed).length = b.currentBlock := length_numberFrom 0 b.closed
  rw [CompiledUnit.blockInsts, numbered_build]
  rcases Nat.lt_trichotomy c b.currentBlock with hc | rfl | hc
  · rw [List.getD_append _ _ _ _ (by omega), if_neg (by omega)]
  · rw [List.getD_append_right _ _ _ _ (by omega), hlen, Nat.sub_self, if_pos rfl, List.getD_cons_zero]
  · rw [List.getD_eq_default _ _ (by rw [List.length_append, hlen]; exact hc), if_neg (by omega),
      List.getD_eq_default _ _ (by omega)]

/-- An empty block at the end changes no block. -/
theorem getD_concat_nil {α : Type} (N : List (List α)) (c : Nat) : (N ++ [[]]).getD c [] = N.getD c [] := by
  by_cases hc : c < N.length
  · rw [List.getD_append _ _ _ _ hc]
  · rw [List.getD_append_right _ _ _ _ (by omega), List.getD_eq_default N _ (by omega)]
    cases c - N.length <;> rfl

/-- The instructions of a block after a step. -/
theorem blockInsts_step (b : Builder) (x : BuildStep) (c : Nat) : (b.step x).2.build.blockInsts c =
    b.build.blockInsts c ++ ((b.addition? x).toList.filter (·.block == c)).map Addition.numbered := by
  rw [addition?_eq]
  cases b.step_cases x with
  | adds i hinst _ _ hclosed hcurrent =>
    have hblock : (b.step x).2.currentBlock = b.currentBlock := congrArg List.length hclosed
    rw [blockInsts_build, blockInsts_build, hclosed, hcurrent, hblock, hinst]
    by_cases hc : c = b.currentBlock
    · simp [hc, List.zipIdx_append, Addition.numbered, nextIdx]
    · simp [hc, Ne.symm hc]
  | opens hinst _ _ hclosed hcurrent =>
    have hnumbered : (b.step x).2.build.numbered = b.build.numbered ++ [[]] := by
      simp only [CompiledUnit.numbered, build, hclosed, hcurrent]
      exact numberFrom_append 0 (b.closed ++ [b.current]) [[]]
    rw [CompiledUnit.blockInsts, hnumbered, getD_concat_nil, hinst]
    simp [CompiledUnit.blockInsts]
  | keeps hinst _ hclosed hcurrent =>
    have hblock : (b.step x).2.currentBlock = b.currentBlock := congrArg List.length hclosed
    rw [blockInsts_build, blockInsts_build, hclosed, hcurrent, hblock, hinst]
    simp

/-- **The instructions of a block are those that were added while it was open**, at the positions that were answered. -/
theorem blockInsts_steps (b : Builder) (xs : List BuildStep) (c : Nat) : (b.steps xs).2.build.blockInsts c =
    b.build.blockInsts c ++ ((b.additions xs).filter (·.block == c)).map Addition.numbered := by
  induction xs generalizing b with
  | nil => simp [steps, additions]
  | cons x xs ih =>
    rw [steps, ih, blockInsts_step, additions, List.filter_append, List.map_append, List.append_assoc]

/-- The row of instructions after a step. -/
theorem insts_step (b : Builder) (x : BuildStep) :
    (b.step x).2.build.insts = b.build.insts ++ x.inst?.toList := by
  simp only [CompiledUnit.insts, build]
  cases b.step_cases x with
  | adds i hinst _ _ hclosed hcurrent => simp [hinst, hclosed, hcurrent]
  | opens hinst _ _ hclosed hcurrent => simp [hinst, hclosed, hcurrent]
  | keeps hinst _ hclosed hcurrent => simp [hinst, hclosed, hcurrent]

theorem length_insts_build (b : Builder) : b.build.insts.length = b.nextIdx := by
  simp [CompiledUnit.insts, build, nextIdx]

/-- **The row of instructions is what was added, in the order of the steps**, and the positions count it. -/
theorem zipIdx_insts_steps (b : Builder) (xs : List BuildStep) :
    ((b.steps xs).2.build.insts.zipIdx).map Prod.swap =
      (b.build.insts.zipIdx).map Prod.swap ++ (b.additions xs).map Addition.numbered := by
  induction xs generalizing b with
  | nil => simp [steps, additions]
  | cons x xs ih =>
    rw [steps, ih, insts_step, additions, addition?_eq, List.zipIdx_append, List.map_append, List.map_append,
      List.append_assoc, length_insts_build]
    cases x.inst? with
    | none => rfl
    | some i => simp [Addition.numbered]

end Builder

/-! ## The arena -/

/-- The largest index of an instruction or a block. -/
def maxIndex : Nat := 0xffffffff

/-- What was asserted of an arena and does not hold. -/
inductive LayoutFault where
  /-- A number is too large for an index. -/
  | index (cause : Fault)
  /-- A block ends before it starts. -/
  | inverted (r : BlockRange)
  /-- The last block does not end where the instructions end. -/
  | uncovered (stop length : Nat)
deriving DecidableEq, Repr

/-- All instructions in one row, where the closed blocks begin and end, and where the open one begins. -/
structure Arena where
  insts : List Inst
  ranges : List BlockRange
  openStart : Nat
deriving DecidableEq, Repr

namespace Arena

def empty : Arena := ⟨[], [], 0⟩

/-- A number as an index. -/
def index (n : Nat) : Except LayoutFault Nat := (indexUpTo maxIndex n).mapError .index

/-- The position of the next instruction. -/
def nextIdx (a : Arena) : Except LayoutFault Nat := index a.insts.length

/-- The number of the open block. -/
def currentBlock (a : Arena) : Except LayoutFault Nat := index a.ranges.length

/-- Adds an instruction to the row. -/
def push (a : Arena) (i : Inst) : Except LayoutFault (Nat × Arena) :=
  a.nextIdx.map fun iidx => (iidx, { a with insts := a.insts ++ [i] })

/-- A range does not end before it starts. -/
def range (start stop : Nat) : Except LayoutFault BlockRange :=
  if start ≤ stop then .ok ⟨start, stop⟩ else .error (.inverted ⟨start, stop⟩)

/-- Closes the open block at the end of the row. -/
def close (a : Arena) : Except LayoutFault Arena := do
  let stop ← a.nextIdx
  let r ← range a.openStart stop
  let _ ← a.currentBlock
  return { a with ranges := a.ranges ++ [r], openStart := stop }

/-- Closes the open block and opens the next. -/
def startBlock (a : Arena) : Except LayoutFault (Nat × Arena) := do
  let a ← a.close
  let b ← a.currentBlock
  return (b, a)

/-- Makes a step, and answers as a builder does. -/
def step (a : Arena) : BuildStep → Except LayoutFault (Option Nat × Arena)
  | .call (.push i) => (a.push i).map fun x => (some x.1, x.2)
  | .call (.dropReg r) => (a.push (.drop r)).map fun x => (some x.1, x.2)
  | .call .startBlock => a.startBlock.map fun x => (some x.1, x.2)
  | .call (.allocReg _) => .ok (none, a)
  | .currentBlock => a.currentBlock.map fun b => (some b, a)

/-- Makes steps one after the other. -/
def steps (a : Arena) : List BuildStep → Except LayoutFault (List (Option Nat) × Arena)
  | [] => .ok ([], a)
  | x :: xs => do
    let r ← a.step x
    let rs ← r.2.steps xs
    return (r.1 :: rs.1, rs.2)

/-- Closes the last block, and makes sure that it ends where the row does. -/
def finish (a : Arena) : Except LayoutFault Arena := do
  let a ← a.close
  let stop := (a.ranges.getLast?.map BlockRange.stop).getD 0
  let length ← a.nextIdx
  if stop = length then return a else .error (.uncovered stop length)

/-- The arena of a unit that is built by the steps, and their answers. -/
def build (xs : List BuildStep) : Except LayoutFault (List (Option Nat) × Arena) := do
  let r ← empty.steps xs
  let a ← r.2.finish
  return (r.1, a)

/-- What stands in the range of block `c`, with the positions. -/
def blockInsts (a : Arena) (c : Nat) : List (Nat × Inst) :=
  match a.ranges[c]? with
  | some r => (((a.insts.drop r.start).take r.length).zipIdx r.start).map Prod.swap
  | none => []

theorem index_of_le {n : Nat} (h : n ≤ maxIndex) : index n = .ok n := by
  rw [index, indexUpTo, if_pos h]
  rfl

/-- The arena has the blocks of the builder in one row. -/
structure Mirrors (a : Arena) (b : Builder) : Prop where
  insts_eq : a.insts = b.closed.flatten ++ b.current
  ranges_eq : a.ranges = rangesFrom 0 b.closed
  openStart_eq : a.openStart = b.closed.flatten.length

theorem mirrors_empty (name : String) (e : Edition) : empty.Mirrors (.new name e) := ⟨rfl, rfl, rfl⟩

variable {a : Arena} {b : Builder}

theorem Mirrors.nextIdx (h : a.Mirrors b) (hidx : b.nextIdx ≤ maxIndex) : a.nextIdx = .ok b.nextIdx := by
  have hlen : a.insts.length = b.nextIdx := by rw [h.insts_eq, List.length_append, Builder.nextIdx]
  rw [Arena.nextIdx, hlen, index_of_le hidx]

theorem Mirrors.currentBlock (h : a.Mirrors b) (hblock : b.currentBlock ≤ maxIndex) :
    a.currentBlock = .ok b.currentBlock := by
  have hlen : a.ranges.length = b.currentBlock := by rw [h.ranges_eq, length_rangesFrom, Builder.currentBlock]
  rw [Arena.currentBlock, hlen, index_of_le hblock]

/-- Adding an instruction to both. -/
theorem Mirrors.push (h : a.Mirrors b) (hidx : b.nextIdx ≤ maxIndex) (b' : Builder) {i : Inst}
    (hclosed : b'.closed = b.closed) (hcurrent : b'.current = b.current ++ [i]) :
    ∃ a', a.push i = .ok (b.nextIdx, a') ∧ a'.Mirrors b' := by
  refine ⟨_, map_eq_ok.mpr ⟨_, h.nextIdx hidx, rfl⟩, ?_, ?_, ?_⟩
  · rw [hclosed, hcurrent, ← List.append_assoc, ← h.insts_eq]
  · rw [hclosed]
    exact h.ranges_eq
  · rw [hclosed]
    exact h.openStart_eq

/-- The open block is closed where it ends in the builder. -/
theorem Mirrors.close (h : a.Mirrors b) (hidx : b.nextIdx ≤ maxIndex) (hblock : b.currentBlock ≤ maxIndex) :
    a.close = .ok ⟨a.insts, rangesFrom 0 (b.closed ++ [b.current]), b.nextIdx⟩ := by
  have hrange : range a.openStart b.nextIdx = .ok ⟨b.closed.flatten.length, b.nextIdx⟩ := by
    have hle : b.closed.flatten.length ≤ b.nextIdx := Nat.le_add_right _ _
    rw [range, h.openStart_eq, if_pos hle]
  refine bind_eq_ok.mpr ⟨_, h.nextIdx hidx, bind_eq_ok.mpr ⟨_, hrange, bind_eq_ok.mpr ⟨_, h.currentBlock hblock, ?_⟩⟩⟩
  rw [h.ranges_eq, rangesFrom_append, Nat.zero_add]
  rfl

/-- **An arena that mirrors a builder answers as the builder does, and mirrors it again.** -/
theorem Mirrors.step (h : a.Mirrors b) (hidx : b.nextIdx < maxIndex) (hblock : b.currentBlock < maxIndex)
    (x : BuildStep) : ∃ a', a.step x = .ok ((b.step x).1, a') ∧ a'.Mirrors (b.step x).2 := by
  cases x with
  | currentBlock => exact ⟨a, map_eq_ok.mpr ⟨_, h.currentBlock (Nat.le_of_lt hblock), rfl⟩, h⟩
  | call c =>
    cases c with
    | push i =>
      obtain ⟨a', ha', hmirrors⟩ := h.push (Nat.le_of_lt hidx) (b.push i) rfl rfl
      exact ⟨a', map_eq_ok.mpr ⟨_, ha', rfl⟩, hmirrors⟩
    | dropReg r =>
      obtain ⟨a', ha', hmirrors⟩ := h.push (Nat.le_of_lt hidx) (b.dropReg r) rfl rfl
      exact ⟨a', map_eq_ok.mpr ⟨_, ha', rfl⟩, hmirrors⟩
    | startBlock =>
      have hmirrors : Mirrors ⟨a.insts, rangesFrom 0 (b.closed ++ [b.current]), b.nextIdx⟩ b.startBlock :=
        ⟨by simp [h.insts_eq, Builder.startBlock], rfl, by simp [Builder.startBlock, Builder.nextIdx]⟩
      have hnext : b.startBlock.currentBlock ≤ maxIndex := by
        simpa [Builder.startBlock, Builder.currentBlock] using hblock
      have hstart : a.startBlock = .ok (b.startBlock.currentBlock,
          ⟨a.insts, rangesFrom 0 (b.closed ++ [b.current]), b.nextIdx⟩) :=
        bind_eq_ok.mpr ⟨_, h.close (Nat.le_of_lt hidx) (Nat.le_of_lt hblock),
          bind_eq_ok.mpr ⟨_, hmirrors.currentBlock hnext, rfl⟩⟩
      exact ⟨_, map_eq_ok.mpr ⟨_, hstart, rfl⟩, hmirrors⟩
    | allocReg w =>
      refine ⟨a, rfl, ?_⟩
      rw [Builder.step, Builder.call_allocReg]
      exact ⟨h.insts_eq, h.ranges_eq, h.openStart_eq⟩

/-- **No assertion fails while the steps do not run out of indices.** -/
theorem Mirrors.steps (h : a.Mirrors b) (xs : List BuildStep)
    (hidx : b.nextIdx + xs.countP (·.inst?.isSome) < maxIndex)
    (hblock : b.currentBlock + xs.countP BuildStep.opens < maxIndex) :
    ∃ a', a.steps xs = .ok ((b.steps xs).1, a') ∧ a'.Mirrors (b.steps xs).2 := by
  induction xs generalizing a b with
  | nil => exact ⟨a, rfl, h⟩
  | cons x xs ih =>
    obtain ⟨a₁, ha₁, h₁⟩ := h.step (by omega) (by omega) x
    rw [List.countP_cons] at hidx hblock
    obtain ⟨a', ha', h'⟩ := ih h₁ (by rw [Builder.nextIdx_step]; omega) (by rw [Builder.currentBlock_step]; omega)
    exact ⟨a', bind_eq_ok.mpr ⟨_, ha₁, bind_eq_ok.mpr ⟨_, ha', rfl⟩⟩, h'⟩

/-- What stands in the ranges of a unit are the instructions of its blocks. -/
theorem blockInsts_of_ranges {u : CompiledUnit} (hinsts : a.insts = u.insts) (hranges : a.ranges = u.ranges) (c : Nat) :
    a.blockInsts c = u.blockInsts c := by
  rw [blockInsts, hinsts, hranges, u.ranges_eq, getElem?_rangesFrom, CompiledUnit.blockInsts,
    List.getD_eq_getElem?_getD, CompiledUnit.getElem?_numbered]
  cases hc : u.blocks[c]? with
  | none => rfl
  | some x =>
    have hslice := take_drop_flatten u.blocks c
    rw [List.getD_eq_getElem?_getD, hc] at hslice
    simp only [Option.map_some, Option.getD_some, BlockRange.length, Nat.zero_add, Nat.add_sub_cancel_left] at hslice ⊢
    rw [CompiledUnit.insts, hslice]
    rfl

/-- The arena has the instructions and the blocks of the unit. -/
structure LaysOut (a : Arena) (u : CompiledUnit) : Prop where
  insts_eq : a.insts = u.insts
  ranges_eq : a.ranges = u.ranges
  blockInsts_eq : ∀ c, a.blockInsts c = u.blockInsts c

/-- At the end, the arena has all of the unit. -/
theorem Mirrors.finish (h : a.Mirrors b) (hidx : b.nextIdx ≤ maxIndex) (hblock : b.currentBlock ≤ maxIndex) :
    ∃ a', a.finish = .ok a' ∧ a'.LaysOut b.build := by
  have hinsts : a.insts = b.build.insts := by rw [h.insts_eq]; simp [CompiledUnit.insts, Builder.build]
  have hranges : rangesFrom 0 (b.closed ++ [b.current]) = b.build.ranges := b.build.ranges_eq.symm
  refine ⟨⟨a.insts, rangesFrom 0 (b.closed ++ [b.current]), b.nextIdx⟩, ?_, hinsts, hranges,
    blockInsts_of_ranges hinsts hranges⟩
  refine bind_eq_ok.mpr ⟨_, h.close hidx hblock, bind_eq_ok.mpr ⟨_, h.nextIdx hidx, ?_⟩⟩
  rw [getLast?_rangesFrom]
  exact if_pos (by simp [Builder.nextIdx])

end Arena

/-! ## The partition -/

namespace CompiledUnit

/-- The blocks of the unit share its instructions among them, and `added` tells which was added to which. -/
structure Partitioned (u : CompiledUnit) (added : List Addition) : Prop where
  /-- The first block starts at the first position. -/
  first : u.ranges.head?.map BlockRange.start = some 0
  /-- Each block ends where the next one starts. -/
  adjacent : u.ranges.IsChain fun r s => r.stop = s.start
  /-- The last block ends with the instructions. -/
  last : u.ranges.getLast?.map BlockRange.stop = some u.insts.length
  /-- A block has what was added while it was open, in that order and at the positions that were answered. -/
  block : ∀ c, u.blockInsts c = (added.filter (·.block == c)).map Addition.numbered
  /-- All blocks together have every instruction once, in the order of the unit. -/
  whole : (List.range u.size).flatMap u.blockInsts = u.insts.zipIdx.map Prod.swap
  /-- That is the order in which they were added. -/
  order : u.insts.zipIdx.map Prod.swap = added.map Addition.numbered

/-- The numbered blocks of a unit, one after the other. -/
theorem flatMap_blockInsts (u : CompiledUnit) :
    (List.range u.size).flatMap u.blockInsts = u.insts.zipIdx.map Prod.swap := by
  rw [List.flatMap_def, map_blockInsts_range, numbered, flatten_numberFrom, insts]

end CompiledUnit

namespace Builder

/-- The unit that is built by the steps. -/
def unitOf (name : String) (e : Edition) (xs : List BuildStep) : CompiledUnit := ((new name e).steps xs).2.build

theorem partitioned_unitOf (name : String) (e : Edition) (xs : List BuildStep) :
    (unitOf name e xs).Partitioned ((new name e).additions xs) where
  first := by rw [CompiledUnit.ranges_eq, head?_rangesFrom 0 (CompiledUnit.blocks_ne_nil _)]
  adjacent := by
    rw [CompiledUnit.ranges_eq]
    exact isChain_rangesFrom 0 _
  last := by
    rw [CompiledUnit.ranges_eq, unitOf, build, getLast?_rangesFrom, Option.map_some]
    exact congrArg some (Nat.zero_add _)
  block c := by
    have hnew : (new name e).build.blockInsts c = [] := by cases c <;> rfl
    rw [unitOf, blockInsts_steps, hnew, List.nil_append]
  whole := CompiledUnit.flatMap_blockInsts _
  order := zipIdx_insts_steps (new name e) xs

/-- **Blocks share the instructions among them.** A unit that is built by any sequence of steps, with fewer than
`2 ^ 32 - 1` instructions and blocks, is laid out in one row without a failed assertion, with the same answers; it has
one block more than were opened; and its blocks are adjacent ranges of the row, each with the instructions that were
added while it was open. -/
theorem build_partitioned (name : String) (e : Edition) (xs : List BuildStep)
    (hinsts : xs.countP (·.inst?.isSome) < maxIndex) (hblocks : xs.countP BuildStep.opens + 1 < maxIndex) :
    (∃ a, Arena.build xs = .ok (((new name e).steps xs).1, a) ∧ a.LaysOut (unitOf name e xs)) ∧
    (unitOf name e xs).size = xs.countP BuildStep.opens + 1 ∧
    (unitOf name e xs).Partitioned ((new name e).additions xs) := by
  have hnextNew : (new name e).nextIdx = 0 := rfl
  have hblockNew : (new name e).currentBlock = 0 := rfl
  have hblock : ((new name e).steps xs).2.currentBlock = xs.countP BuildStep.opens := by
    rw [currentBlock_steps, hblockNew, Nat.zero_add]
  have hnext : ((new name e).steps xs).2.nextIdx = xs.countP (·.inst?.isSome) := by
    rw [nextIdx_steps, hnextNew, Nat.zero_add]
  refine ⟨?_, ?_, partitioned_unitOf name e xs⟩
  · obtain ⟨a₁, ha₁, h₁⟩ := (Arena.mirrors_empty name e).steps xs (by omega) (by omega)
    obtain ⟨a, ha, hlayout⟩ := h₁.finish (by omega) (by omega)
    exact ⟨a, bind_eq_ok.mpr ⟨_, ha₁, bind_eq_ok.mpr ⟨_, ha, rfl⟩⟩, hlayout⟩
  · rw [CompiledUnit.size, unitOf, build, List.length_append, ← hblock]
    rfl

/-- Two blocks opened one after the other, and a register that is dropped in the second of them. -/
def shortSteps : List BuildStep :=
  [.currentBlock, .call (.allocReg .w64), .call (.push (.const (.gp 0 .w64) 3)), .call .startBlock, .call .startBlock,
    .call (.push (.blackbox (.gp 0 .w64))), .call (.dropReg (.gp 0 .w64)), .currentBlock, .call (.push (.br 1))]

theorem shortSteps_partitioned :
    shortSteps.countP (·.inst?.isSome) < maxIndex ∧ shortSteps.countP BuildStep.opens + 1 < maxIndex ∧
    (∃ a, Arena.build shortSteps = .ok (((new "short" .e0).steps shortSteps).1, a) ∧
      a.LaysOut (unitOf "short" .e0 shortSteps)) ∧
    (unitOf "short" .e0 shortSteps).size = shortSteps.countP BuildStep.opens + 1 ∧
    (unitOf "short" .e0 shortSteps).Partitioned ((new "short" .e0).additions shortSteps) :=
  ⟨by decide, by decide, build_partitioned "short" .e0 shortSteps (by decide) (by decide)⟩

end Builder

end ChillHints
