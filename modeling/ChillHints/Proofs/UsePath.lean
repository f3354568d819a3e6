import ChillHints.Proofs.Flow

/-!
# Paths to the next use of a value

The instructions of a unit form a graph: from an instruction control goes to the one behind it in its block, or over
successor edges, and through empty blocks, to the first instruction of another block (`Follows`). A use path from `i`
for a group ends at an instruction that reads the group, and no instruction before that on the path ends the value
(`UsePath`). `u.UsedAt g i n` says that there is a use path of `n` steps; `usedAt_iff` unfolds its first step.

The scan goes over blocks, so the same is said once more by block and number in the block: `u.UseIn g b k n` counts
the steps from just before instruction `k` of block `b`. The two agree (`usedAt_iff_useIn`).
-/

namespace ChillHints

namespace CompiledUnit

variable {u : CompiledUnit} {g : Group} {b c i j k n : Nat} {inst : Inst}

/-! ## The graph of instructions -/

/-- From just before instruction number `k` of block `b`, control comes next to the instruction at position `j`. Where
the block is at its end, this is the first instruction on the way over successor edges. -/
inductive Leads (u : CompiledUnit) : Nat → Nat → Nat → Prop
  | here {b k : Nat} : k < (u.blockAt b).length → Leads u b k (u.start b + k)
  | edge {b c k j : Nat} : (u.blockAt b).length ≤ k → c ∈ u.successors b → Leads u c 0 j → Leads u b k j

/-- The instruction at `j` can be the next one after the instruction at `i`. -/
def Follows (u : CompiledUnit) (i j : Nat) : Prop :=
  ∃ b k, i = u.start b + k ∧ k < (u.blockAt b).length ∧ u.Leads b (k + 1) j

/-- The positions of a path from the instruction at `i`, itself left out, to the next read of the value of `g`. -/
structure UsePath (u : CompiledUnit) (g : Group) (i : Nat) (path : List Nat) : Prop where
  chain : List.IsChain u.Follows (i :: path)
  /-- The last instruction reads the group; it may also write it. -/
  reads : ∃ j inst, path.getLast? = some j ∧ u.insts[j]? = some inst ∧ inst.Reads g
  /-- The instructions before the last one neither write nor drop the group. -/
  spares : ∀ j ∈ path.dropLast, ∀ inst, u.insts[j]? = some inst → ¬ inst.Ends g

/-- The value that `g` has just after `i` can be read by the `n`-th instruction from there. -/
def UsedAt (u : CompiledUnit) (g : Group) (i n : Nat) : Prop := ∃ path, u.UsePath g i path ∧ path.length = n

theorem Leads.insts (h : u.Leads b k j) : ∃ inst, u.insts[j]? = some inst := by
  induction h with
  | here hk =>
    obtain ⟨inst, hat⟩ := exists_at_of_lt hk
    exact ⟨inst, hat.getElem?_insts⟩
  | edge _ _ _ ih => exact ih

theorem Follows.insts (h : u.Follows i j) : ∃ inst, u.insts[j]? = some inst := by
  obtain ⟨b, k, _, _, h⟩ := h
  exact h.insts

theorem follows_of_leads (hat : u.At b k inst) (h : u.Leads b (k + 1) j) : u.Follows (u.start b + k) j :=
  ⟨b, k, rfl, hat.lt, h⟩

theorem leads_of_follows (hat : u.At b k inst) (h : u.Follows (u.start b + k) j) : u.Leads b (k + 1) j := by
  obtain ⟨c, l, hcl, hl, h⟩ := h
  obtain ⟨rfl, rfl⟩ := start_add_inj hat.lt hl hcl
  exact h

/-- The first step of a use path. -/
theorem usedAt_iff : u.UsedAt g i n ↔ ∃ j inst, u.Follows i j ∧ u.insts[j]? = some inst ∧
    (n = 1 ∧ inst.Reads g ∨ ∃ m, n = m + 1 ∧ ¬ inst.Ends g ∧ u.UsedAt g j m) := by
  constructor
  · rintro ⟨path, ⟨hchain, hreads, hspares⟩, rfl⟩
    cases path with
    | nil => obtain ⟨j, inst, hj, _⟩ := hreads; cases hj
    | cons j path =>
      obtain ⟨hij, hchain⟩ := List.isChain_cons_cons.mp hchain
      obtain ⟨inst, hinst⟩ := hij.insts
      refine ⟨j, inst, hij, hinst, ?_⟩
      cases path with
      | nil =>
        obtain ⟨j', inst', hj, hinst', hr⟩ := hreads
        cases hj
        cases hinst.symm.trans hinst'
        exact Or.inl ⟨rfl, hr⟩
      | cons j' path =>
        refine Or.inr ⟨_, rfl, hspares j (by simp) inst hinst, j' :: path, ⟨hchain, ?_, ?_⟩, rfl⟩
        · simpa using hreads
        · intro l hl
          exact hspares l (by simp [hl])
  · rintro ⟨j, inst, hij, hinst, ⟨rfl, hr⟩ | ⟨m, rfl, hends, path, ⟨hchain, hreads, hspares⟩, rfl⟩⟩
    · exact ⟨[j], ⟨by simpa using hij, ⟨j, inst, rfl, hinst, hr⟩, by simp⟩, rfl⟩
    · cases path with
      | nil => obtain ⟨j, inst, hj, _⟩ := hreads; cases hj
      | cons j' path =>
        refine ⟨j :: j' :: path, ⟨List.isChain_cons_cons.mpr ⟨hij, hchain⟩, by simpa using hreads, ?_⟩, rfl⟩
        intro l hl inst' hinst'
        rw [List.dropLast_cons_cons] at hl
        rcases List.mem_cons.mp hl with rfl | hl
        · cases hinst.symm.trans hinst'; exact hends
        · exact hspares l hl inst' hinst'

/-! ## The same by blocks -/

/-- From just before instruction `k` of block `b`, the value of `g` can be read by the `n`-th instruction. -/
inductive UseIn (u : CompiledUnit) (g : Group) : Nat → Nat → Nat → Prop
  | read {b k : Nat} {inst : Inst} : u.At b k inst → inst.Reads g → UseIn u g b k 1
  | skip {b k n : Nat} {inst : Inst} : u.At b k inst → ¬ inst.Ends g → UseIn u g b (k + 1) n → UseIn u g b k (n + 1)
  | edge {b c k n : Nat} : (u.blockAt b).length ≤ k → c ∈ u.successors b → UseIn u g c 0 n → UseIn u g b k n

/-- A use that starts at the instruction to which control comes next. -/
theorem Leads.useIn (h : u.Leads b k j) (huse : ∀ c l, j = u.start c + l → l < (u.blockAt c).length → u.UseIn g c l n) :
    u.UseIn g b k n := by
  induction h with
  | here hk => exact huse _ _ rfl hk
  | edge hk hc _ ih => exact .edge hk hc (ih huse)

theorem useIn_of_usedAt (hat : u.At b k inst) (h : u.UsedAt g (u.start b + k) n) : u.UseIn g b (k + 1) n := by
  induction n using Nat.strong_induction_on generalizing b k inst with
  | _ n ih =>
    obtain ⟨j, inst', hij, hinst, hcase⟩ := usedAt_iff.mp h
    refine (leads_of_follows hat hij).useIn fun c l hj hl => ?_
    obtain ⟨inst'', hat'⟩ := exists_at_of_lt hl
    rw [hj, hat'.getElem?_insts] at hinst
    cases hinst
    rcases hcase with ⟨rfl, hr⟩ | ⟨m, rfl, hends, huse⟩
    · exact .read hat' hr
    · rw [hj] at huse
      exact .skip hat' hends (ih m (by omega) hat' huse)

theorem exists_leads_of_useIn (h : u.UseIn g b k n) : ∃ j inst, u.Leads b k j ∧ u.insts[j]? = some inst ∧
    (n = 1 ∧ inst.Reads g ∨ ∃ m, n = m + 1 ∧ ¬ inst.Ends g ∧ u.UsedAt g j m) := by
  induction h with
  | read hat hr => exact ⟨_, _, .here hat.lt, hat.getElem?_insts, Or.inl ⟨rfl, hr⟩⟩
  | @skip b k n inst hat hends _ ih =>
    obtain ⟨j, inst', hleads, hrest⟩ := ih
    refine ⟨_, _, .here hat.lt, hat.getElem?_insts, Or.inr ⟨n, rfl, hends, ?_⟩⟩
    exact usedAt_iff.mpr ⟨j, inst', follows_of_leads hat hleads, hrest⟩
  | edge hk hc _ ih =>
    obtain ⟨j, inst, hleads, hrest⟩ := ih
    exact ⟨j, inst, .edge hk hc hleads, hrest⟩

/-- **Uses by positions and uses by blocks are the same.** -/
theorem usedAt_iff_useIn (hat : u.At b k inst) : u.UsedAt g (u.start b + k) n ↔ u.UseIn g b (k + 1) n := by
  constructor
  · exact useIn_of_usedAt hat
  · intro h
    obtain ⟨j, inst', hleads, hrest⟩ := exists_leads_of_useIn h
    exact usedAt_iff.mpr ⟨j, inst', follows_of_leads hat hleads, hrest⟩

end CompiledUnit

end ChillHints
