import ChillHints.Code.CompiledUnit
import Mathlib.Data.List.Basic

/-!
# Positions of instructions

`u.At b k inst` says that `inst` is instruction number `k` of block `b`. Its position in the whole unit is
`u.start b + k`. Positions ascend through the blocks (`start_add_lt_iff`), so every instruction has one of its own
(`start_add_inj`), and every number below the number of instructions is a position (`exists_at`).

A list made block by block has at a position what the list of the block has there (`getElem?_flatten_start`).
-/

namespace ChillHints

/-! ## Lists of lists -/

section Flatten

variable {α β : Type}

/-- Where the elements of the inner lists are in the flat list. -/
theorem getElem?_flatten_start (L : List (List α)) (b k : Nat) (h : k < (L.getD b []).length) :
    L.flatten[(L.take b).flatten.length + k]? = (L.getD b [])[k]? := by
  induction L generalizing b with
  | nil => simp at h
  | cons x L ih =>
    cases b with
    | zero =>
      simp only [List.getD_cons_zero] at h
      simp only [List.take_zero, List.flatten_nil, List.length_nil, Nat.zero_add, List.flatten_cons,
        List.getD_cons_zero]
      exact List.getElem?_append_left h
    | succ b =>
      simp only [List.getD_cons_succ] at h
      simp only [List.take_succ_cons, List.flatten_cons, List.length_append, List.getD_cons_succ]
      rw [List.getElem?_append_right (by omega), ← ih b h]
      congr 1
      omega

theorem length_take_flatten_succ (L : List (List α)) (b : Nat) :
    (L.take (b + 1)).flatten.length = (L.take b).flatten.length + (L.getD b []).length := by
  induction L generalizing b with
  | nil => simp
  | cons x L ih =>
    cases b with
    | zero => simp
    | succ b =>
      simp only [List.take_succ_cons, List.flatten_cons, List.length_append, List.getD_cons_succ]
      rw [ih b]
      omega

theorem exists_of_lt_length_flatten (L : List (List α)) (i : Nat) (h : i < L.flatten.length) :
    ∃ b k, i = (L.take b).flatten.length + k ∧ k < (L.getD b []).length := by
  induction L generalizing i with
  | nil => simp at h
  | cons x L ih =>
    simp only [List.flatten_cons, List.length_append] at h
    by_cases hi : i < x.length
    · exact ⟨0, i, by simp, by simpa using hi⟩
    · obtain ⟨b, k, hb, hk⟩ := ih (i - x.length) (by omega)
      refine ⟨b + 1, k, ?_, by simpa using hk⟩
      simp only [List.take_succ_cons, List.flatten_cons, List.length_append]
      omega

/-- Lists of lists with inner lists of the same lengths have them at the same places. -/
theorem length_take_flatten_congr {L : List (List α)} {M : List (List β)}
    (h : L.map List.length = M.map List.length) (b : Nat) :
    (L.take b).flatten.length = (M.take b).flatten.length := by
  rw [List.length_flatten, List.length_flatten, List.map_take, List.map_take, h]

theorem getElem?_numberFrom (n : Nat) (L : List (List α)) (b : Nat) :
    (numberFrom n L)[b]? =
      L[b]?.map fun x => (x.zipIdx (n + (L.take b).flatten.length)).map fun (y, i) => (i, y) := by
  induction L generalizing n b with
  | nil => simp [numberFrom]
  | cons x L ih =>
    cases b with
    | zero => simp [numberFrom]
    | succ b =>
      simp only [numberFrom, List.getElem?_cons_succ, ih, List.take_succ_cons, List.flatten_cons, List.length_append,
        Nat.add_assoc]

theorem map_snd_numberFrom (n : Nat) (L : List (List α)) : (numberFrom n L).map (·.map Prod.snd) = L := by
  induction L generalizing n with
  | nil => rfl
  | cons xs L ih => simp [numberFrom, ih, Function.comp_def]

theorem length_numberFrom (n : Nat) (L : List (List α)) : (numberFrom n L).length = L.length := by
  simpa using congrArg List.length (map_snd_numberFrom n L)

/-- The numbers go on in the second of two lists where the first ends. -/
theorem numberFrom_append (n : Nat) (L M : List (List α)) :
    numberFrom n (L ++ M) = numberFrom n L ++ numberFrom (n + L.flatten.length) M := by
  induction L generalizing n with
  | nil => rfl
  | cons x L ih =>
    simp only [List.cons_append, numberFrom, ih, List.flatten_cons, List.length_append, Nat.add_assoc]

/-- All inner lists together are numbered as one list. -/
theorem flatten_numberFrom (n : Nat) (L : List (List α)) :
    (numberFrom n L).flatten = (L.flatten.zipIdx n).map Prod.swap := by
  induction L generalizing n with
  | nil => rfl
  | cons x L ih =>
    rw [numberFrom, List.flatten_cons, ih, List.flatten_cons, List.zipIdx_append, List.map_append]
    rfl

end Flatten

/-! ## Positions -/

namespace CompiledUnit

variable {u : CompiledUnit} {b c k l : Nat} {inst : Inst}

/-- The instructions of block `b`; there are none where there is no block. -/
def blockAt (u : CompiledUnit) (b : Nat) : List Inst := u.blocks.getD b []

/-- Instruction number `k` of block `b` is `inst`. -/
def At (u : CompiledUnit) (b k : Nat) (inst : Inst) : Prop := (u.blockAt b)[k]? = some inst

theorem At.lt (h : u.At b k inst) : k < (u.blockAt b).length := (List.getElem?_eq_some_iff.mp h).1

theorem exists_at_of_lt (h : k < (u.blockAt b).length) : ∃ inst, u.At b k inst :=
  ⟨_, List.getElem?_eq_getElem h⟩

/-- An instruction is in a block that exists. -/
theorem At.block_lt (h : u.At b k inst) : b < u.size := by
  have hk := h.lt
  by_contra hb
  rw [blockAt, List.getD_eq_getElem?_getD, List.getElem?_eq_none (by unfold size at hb; omega)] at hk
  simp at hk

theorem start_succ (u : CompiledUnit) (b : Nat) : u.start (b + 1) = u.start b + (u.blockAt b).length :=
  length_take_flatten_succ u.blocks b

/-- A block ends before a later block starts. -/
theorem start_add_length_le (h : b < c) : u.start b + (u.blockAt b).length ≤ u.start c := by
  induction c with
  | zero => omega
  | succ c ih =>
    rw [start_succ]
    rcases Nat.lt_or_eq_of_le (Nat.le_of_lt_succ h) with h | rfl
    · have := ih h; omega
    · omega

/-- Positions are in the order of the blocks, and in the order of the instructions in each. -/
theorem start_add_lt_iff (hk : k < (u.blockAt b).length) (hl : l < (u.blockAt c).length) :
    u.start b + k < u.start c + l ↔ b < c ∨ b = c ∧ k < l := by
  rcases Nat.lt_trichotomy b c with h | rfl | h
  · have := start_add_length_le (u := u) h
    omega
  · omega
  · have := start_add_length_le (u := u) h
    omega

/-- An instruction is known by its position. -/
theorem start_add_inj (hk : k < (u.blockAt b).length) (hl : l < (u.blockAt c).length)
    (h : u.start b + k = u.start c + l) : b = c ∧ k = l := by
  have h₁ := start_add_lt_iff hk hl
  have h₂ := start_add_lt_iff hl hk
  omega

/-- The instruction at a position. -/
theorem At.getElem?_insts (h : u.At b k inst) : u.insts[u.start b + k]? = some inst :=
  (getElem?_flatten_start u.blocks b k h.lt).trans h

/-- Every number below the number of instructions is a position. -/
theorem exists_at {i : Nat} (h : i < u.insts.length) : ∃ b k inst, i = u.start b + k ∧ u.At b k inst := by
  obtain ⟨b, k, hi, hk⟩ := exists_of_lt_length_flatten u.blocks i h
  obtain ⟨inst, hat⟩ := exists_at_of_lt (u := u) hk
  exact ⟨b, k, inst, hi, hat⟩

/-- The instructions of a block with their positions. -/
theorem getElem?_numbered (u : CompiledUnit) (b : Nat) :
    u.numbered[b]? = u.blocks[b]?.map fun x => (x.zipIdx (u.start b)).map fun (y, i) => (i, y) := by
  rw [numbered, getElem?_numberFrom, Nat.zero_add]
  rfl

/-- Lists of the lengths of the blocks, block by block. -/
theorem map_length_blocks {β : Type} {F : Fin u.size → List β} (hF : ∀ b, (F b).length = (u.blockAt b).length) :
    ((List.finRange u.size).map F).map List.length = u.blocks.map List.length := by
  apply List.ext_getElem
  · rw [List.length_map, List.length_map, List.length_map, List.length_finRange, size]
  · intro i h₁ h₂
    have hi : i < u.blocks.length := by simpa using h₂
    simp [hF, blockAt, List.getElem?_eq_getElem hi]

/-- A list that is made block by block, with one element for each instruction, has as many as there are instructions. -/
theorem length_flatMap_blocks {β : Type} {F : Fin u.size → List β} (hF : ∀ b, (F b).length = (u.blockAt b).length) :
    ((List.finRange u.size).flatMap F).length = u.insts.length := by
  rw [List.flatMap_def, List.length_flatten, map_length_blocks hF, ← List.length_flatten, insts]

/-- It has them at the positions. -/
theorem getElem?_flatMap_start {β : Type} {F : Fin u.size → List β} (hF : ∀ b, (F b).length = (u.blockAt b).length)
    {b : Fin u.size} (hk : k < (u.blockAt b).length) :
    ((List.finRange u.size).flatMap F)[u.start b + k]? = (F b)[k]? := by
  have hget : ((List.finRange u.size).map F).getD b [] = F b := by simp
  rw [start, ← length_take_flatten_congr (map_length_blocks hF), List.flatMap_def,
    getElem?_flatten_start _ _ _ (by rw [hget, hF]; exact hk), hget]

theorem blockAt_eq {x : List Inst} (h : u.blocks[b]? = some x) : u.blockAt b = x := by
  rw [blockAt, List.getD_eq_getElem?_getD, h]
  rfl

/-- The instructions of a block are numbered from its start on. -/
theorem blockInsts_eq (hb : b < u.size) : u.blockInsts b = ((u.blockAt b).zipIdx (u.start b)).map Prod.swap := by
  rw [blockInsts, List.getD_eq_getElem?_getD, getElem?_numbered, List.getElem?_eq_getElem hb,
    blockAt_eq (List.getElem?_eq_getElem hb)]
  rfl

theorem map_blockInsts_range (u : CompiledUnit) : (List.range u.size).map u.blockInsts = u.numbered := by
  have hlen : u.numbered.length = u.size := length_numberFrom 0 u.blocks
  apply List.ext_getElem?
  intro c
  by_cases hc : c < u.size
  · rw [List.getElem?_map, List.getElem?_range hc, Option.map_some, blockInsts, List.getD_eq_getElem?_getD,
      List.getElem?_eq_getElem (by omega), Option.getD_some]
  · rw [List.getElem?_eq_none (by simpa using hc), List.getElem?_eq_none (by omega)]

end CompiledUnit

end ChillHints
