import ChillHints.Code.Builder
import ChillHints.Code.Sample
import ChillHints.Proofs.Validity

/-!
# Samples are valid

Between the operations of a sample, the six registers of the sample and the stack pointer are written at full width
(`Full`). Code is `Steady` if it can be entered in such a state and leaves one behind.

- `Settles.steady`: an instruction that reads registers of the sample and writes at full width is steady.
- `steady_opInsts`: so is what an operation stands for, also where it drops a register or writes it narrow in between.
- `IsSample.ready`: so a path that has left the first block arrives with everything written.

The terminators go to blocks that exist, and every block but the last can go on to the next. From this alone a unit is
valid and all its blocks can be reached (`IsSample.validate_ok`, `IsSample.exists_arrives`).

A sample can as well be put together by calls on a builder, one instruction after the other (`assemble_eq`).
-/

namespace ChillHints

/-! ## What is written along a sequence of instructions -/

/-- How many low bits of each group are written. -/
abbrev Bits := Group → Option Nat

namespace Bits

variable {e : Edition} {d : Bits} {is js : List Inst}

/-- What is written after some instructions. -/
def after (e : Edition) (d : Bits) (is : List Inst) : Bits := fun g => written e g (d g) is

theorem after_append (d : Bits) (is js : List Inst) : after e d (is ++ js) = after e (after e d is) js := by
  funext g
  exact written_append e g (d g) is js

/-- All bits of the view `r` are written. -/
def Covers (e : Edition) (d : Bits) (r : Reg) : Prop :=
  ∃ g m, r.group? = some g ∧ d g = some m ∧ e.bits r.width ≤ m

/-- Every read of the instructions is of something written. -/
def Feeds (e : Edition) : Bits → List Inst → Prop
  | _, [] => True
  | d, i :: is => (∀ r ∈ i.reads, Covers e d r) ∧ Feeds e (after e d [i]) is

theorem feeds_append : Feeds e d (is ++ js) ↔ Feeds e d is ∧ Feeds e (after e d is) js := by
  induction is generalizing d with
  | nil => simp [Feeds, show after e d [] = d from rfl]
  | cons i is ih =>
    have hafter : after e d (i :: is) = after e (after e d [i]) is := after_append d [i] is
    simp only [List.cons_append, Feeds, ih, hafter, and_assoc]

/-- At each instruction the reads are covered by what is written before it. -/
theorem Feeds.covers (h : Feeds e d is) {k : Nat} {inst : Inst} (hk : is[k]? = some inst) {r : Reg}
    (hr : r ∈ inst.reads) : Covers e (after e d (is.take k)) r := by
  obtain ⟨hlt, rfl⟩ := List.getElem?_eq_some_iff.mp hk
  have hsplit : is = is.take k ++ is.drop k := (List.take_append_drop k is).symm
  rw [hsplit, feeds_append, List.drop_eq_getElem_cons hlt] at h
  exact h.2.1 r hr

/-- What is written of a group is what was before, if nothing ends its value, or what one of the instructions brings. -/
theorem after_eq_or (d : Bits) (is : List Inst) (g : Group) :
    (after e d is g = d g ∧ ∀ op ∈ is.flatMap Inst.operands, op.ends g = false) ∨
      ∃ op ∈ is.flatMap Inst.operands, op.ends g = true ∧ after e d is g = op.brings e := by
  unfold after written endings
  cases hlast : ((is.flatMap Inst.operands).filter (·.ends g)).getLast? with
  | none =>
    have hnone := List.filter_eq_nil_iff.mp (List.getLast?_eq_none_iff.mp hlast)
    exact Or.inl ⟨rfl, fun op hop => by simpa using hnone op hop⟩
  | some op =>
    obtain ⟨hop, hends⟩ := List.mem_filter.mp (List.mem_of_getLast? hlast)
    exact Or.inr ⟨op, hop, hends, rfl⟩

end Bits

namespace Sample

/-! ## Steady code -/

/-- The registers that samples use. -/
def InUse : Reg → Prop
  | .gp n _ => n.toNat < numRegs
  | .sp => True

theorem inUse_sp : InUse .sp := trivial

/-- Everything that samples use is written at full width. -/
def Full (d : Bits) : Prop := ∀ r g, InUse r → r.group? = some g → d g = some 64

variable {d : Bits} {is js : List Inst} {i : Inst}

theorem InUse.exists_group {r : Reg} (hr : InUse r) : ∃ g, r.group? = some g := by
  cases r with
  | sp => exact ⟨_, rfl⟩
  | gp n w =>
    have hn : n.toNat < 6 := hr
    exact ⟨_, dif_pos (show n.toNat < 15 by omega)⟩

theorem not_numGp_le {e : Edition} {n : UInt8} {w : Width} (hn : InUse (.gp n w)) : ¬ e.numGp ≤ n.toNat := by
  have hn : n.toNat < 6 := hn
  cases e
  show ¬ 15 ≤ n.toNat
  omega

theorem Full.covers (hd : Full d) {r : Reg} (hr : InUse r) : Bits.Covers .e0 d r := by
  obtain ⟨g, hg⟩ := hr.exists_group
  exact ⟨g, 64, hg, hd r g hr hg, bits_le _ _⟩

/-- The instruction is no terminator, uses only registers of samples, and leaves the stack pointer alone unless it is
`sp_add`. -/
structure Plain (i : Inst) : Prop where
  inUse : ∀ op ∈ i.operands, InUse op.reg
  stackPointer : ∀ op ∈ i.operands, op.reg = .sp → op.role = .read ∨ ∃ off, i = .spAdd off
  notTerm : i.isTerm = false

theorem targets_of_notTerm (hi : i.isTerm = false) : i.targets = [] := by
  cases i <;> simp_all [Inst.isTerm, Inst.targets]

/-- The code reads what is written when it is entered, and leaves everything written. -/
structure Sustains (d : Bits) (is : List Inst) : Prop where
  feeds : Bits.Feeds .e0 d is
  full : Full (Bits.after .e0 d is)

theorem Full.sustains_nil (hd : Full d) : Sustains d [] := ⟨trivial, hd⟩

theorem Sustains.append (his : Sustains d is) (hjs : ∀ {d'}, Full d' → Sustains d' js) : Sustains d (is ++ js) where
  feeds := Bits.feeds_append.mpr ⟨his.feeds, (hjs his.full).feeds⟩
  full := by
    rw [Bits.after_append]
    exact (hjs his.full).full

/-- The code can be entered with everything written, and leaves everything written. -/
structure Steady (is : List Inst) : Prop where
  plain : ∀ i ∈ is, Plain i
  sustains : ∀ {d}, Full d → Sustains d is

theorem steady_nil : Steady [] where
  plain i hi := by cases hi
  sustains := Full.sustains_nil

theorem Steady.append (his : Steady is) (hjs : Steady js) : Steady (is ++ js) where
  plain i hi := by
    rcases List.mem_append.mp hi with hi | hi
    · exact his.plain i hi
    · exact hjs.plain i hi
  sustains hd := (his.sustains hd).append hjs.sustains

theorem steady_flatten {iss : List (List Inst)} (h : ∀ is ∈ iss, Steady is) : Steady iss.flatten := by
  induction iss with
  | nil => exact steady_nil
  | cons is iss ih =>
    obtain ⟨his, hiss⟩ := List.forall_mem_cons.mp h
    exact his.append (ih hiss)

/-- The instruction uses registers of samples. What it does not read it writes at full width, and the stack pointer only
if it is `sp_add`. -/
def Settles (i : Inst) : Prop :=
  ∀ op ∈ i.operands, InUse op.reg ∧ (op.role = .read ∨
    op.role = .write ∧ Edition.e0.bits op.reg.width = 64 ∧ (op.reg = .sp → ∃ off, i = .spAdd off))

theorem Settles.plain (hi : Settles i) (hterm : i.isTerm = false) : Plain i where
  inUse op hop := (hi op hop).1
  stackPointer op hop hsp := by
    rcases (hi op hop).2 with hread | ⟨-, -, hadd⟩
    · exact Or.inl hread
    · exact Or.inr (hadd hsp)
  notTerm := hterm

/-- What it leaves behind: a group is as it was if nothing ends its value, and else written at full width. -/
theorem Settles.after_eq_or (hi : Settles i) (d : Bits) (g : Group) :
    (Bits.after .e0 d [i] g = d g ∧ ∀ op ∈ i.operands, op.ends g = false) ∨ Bits.after .e0 d [i] g = some 64 := by
  rcases Bits.after_eq_or (e := .e0) d [i] g with ⟨heq, hno⟩ | ⟨op, hop, hends, heq⟩
  · exact Or.inl ⟨heq, by simpa using hno⟩
  · rw [List.flatMap_singleton] at hop
    rcases (hi op hop).2 with hread | ⟨hwrite, hbits, -⟩
    · simp [Operand.ends, hread] at hends
    · rw [heq, Operand.brings, if_pos hwrite, hbits]
      exact Or.inr rfl

theorem Settles.sustains (hi : Settles i) (hd : Full d) : Sustains d [i] where
  feeds := ⟨fun _ hr => hd.covers (hi _ (Inst.mem_reads.mp hr)).1, trivial⟩
  full := by
    intro r g hr hg
    rcases hi.after_eq_or d g with ⟨heq, -⟩ | heq
    · rw [heq]
      exact hd r g hr hg
    · exact heq

/-- **An instruction that writes at full width is steady.** -/
theorem Settles.steady (hi : Settles i) (hterm : i.isTerm = false) : Steady [i] where
  plain j hj := by
    rw [List.mem_singleton.mp hj]
    exact hi.plain hterm
  sustains := hi.sustains

/-- Instructions that end the value of one group only leave everything written if the last one writes that group. -/
theorem Full.rewrite (hd : Full d) (is : List Inst) (g₀ : Group)
    (honly : ∀ op ∈ is.flatMap Inst.operands, ∀ g, op.ends g = true → g = g₀) (hi : Settles i)
    (hends : ∃ op ∈ i.operands, op.ends g₀ = true) : Full (Bits.after .e0 d (is ++ [i])) := by
  intro r g hr hg
  rw [Bits.after_append]
  rcases hi.after_eq_or (Bits.after .e0 d is) g with ⟨heq, hno⟩ | heq
  · rw [heq]
    rcases Bits.after_eq_or (e := .e0) d is g with ⟨heq, -⟩ | ⟨op, hop, hop', -⟩
    · rw [heq]
      exact hd r g hr hg
    · -- it is the group that the last instruction writes
      obtain ⟨op', hop', hends⟩ := hends
      rw [← honly op hop g ‹_›, hno op' hop'] at hends
      cases hends
  · exact heq

/-! ## Operations -/

section Operations

variable {n x : Nat}

theorem view_eq (hn : n < numRegs) (w : Width) : Reg.view n w = .ok (.gp (UInt8.ofNat n) w) := by
  have hn : n < 6 := hn
  rw [Reg.view, indexUpTo, if_pos (by omega)]
  rfl

theorem inUse_gp (hn : n < numRegs) (w : Width) : InUse (.gp (UInt8.ofNat n) w) := by
  have hn : n < 6 := hn
  rw [InUse, UInt8.toNat_ofNat', Nat.mod_eq_of_lt (by omega)]
  exact hn

theorem readable_eq (hn : n < numRegs) (x : Nat) : readable n x = .ok (.gp (UInt8.ofNat n) (widthAt x)) := view_eq hn _

theorem exists_writable (hn : n < numRegs) (x : Nat) :
    ∃ w, writable n x = .ok (.gp (UInt8.ofNat n) w) ∧ Edition.e0.bits w = 64 := by
  refine ⟨_, view_eq hn _, ?_⟩
  split <;> rfl

/-- Of the narrow widths, one that is picked from those up to another is not wider. -/
theorem bits_widthAt_le (x : Nat) :
    Edition.e0.bits (widthAt (x / 4 % (x % 3 + 1))) ≤ Edition.e0.bits (widthAt (x % 3)) := by
  have hlt : x % 3 < 3 := Nat.mod_lt _ (by decide)
  have hle : x / 4 % (x % 3 + 1) ≤ x % 3 := Nat.le_of_lt_succ (Nat.mod_lt _ (Nat.succ_pos _))
  have hmono : ∀ k < 3, ∀ j ≤ k, Edition.e0.bits (widthAt j) ≤ Edition.e0.bits (widthAt k) := by decide
  exact hmono _ hlt _ hle

/-- The views of a number have one group. -/
theorem exists_group_gp (hn : n < numRegs) : ∃ g, ∀ w, Reg.group? (.gp (UInt8.ofNat n) w) = some g := by
  obtain ⟨g, hg⟩ := (inUse_gp hn .w8).exists_group
  exact ⟨g, fun _ => hg⟩

/-- Dropping a register is steady if it is written right after. -/
theorem steady_dropConst (hn : n < numRegs) {w : Width} (hw : Edition.e0.bits w = 64) (val : UInt64) :
    Steady [.drop (.gp (UInt8.ofNat n) w), .const (.gp (UInt8.ofNat n) w) val] := by
  have huse := inUse_gp hn
  obtain ⟨g, hg⟩ := exists_group_gp hn
  refine ⟨?_, fun hd => ⟨?_, ?_⟩⟩
  · simp only [List.mem_cons, List.not_mem_nil, or_false]
    rintro i (rfl | rfl) <;> constructor <;> simp [Inst.operands, Inst.isTerm, huse]
  · simp [Bits.Feeds, Inst.reads, Inst.operands]
  · refine hd.rewrite [_] g ?_ ?_ ?_
    · simp [Inst.operands, Operand.ends, hg]
    · simp [Settles, Inst.operands, Reg.width, huse, hw]
    · simp [Inst.operands, Operand.ends, hg]

/-- A run of narrow instructions is steady: it reads no more than it wrote, and writes all bits at its end. -/
theorem steady_narrowRun (hn : n < numRegs) (x : Nat) : ∃ is, narrowRun n x = .ok is ∧ Steady is := by
  obtain ⟨w, hw, hbits⟩ := exists_writable hn x
  simp only [narrowRun, view_eq hn, readable_eq hn, hw]
  refine ⟨_, rfl, ?_⟩
  have huse := inUse_gp hn
  obtain ⟨g, hg⟩ := exists_group_gp hn
  refine ⟨?_, fun hd => ⟨?_, ?_⟩⟩
  · simp only [List.mem_cons, List.not_mem_nil, or_false]
    rintro i (rfl | rfl | rfl | rfl) <;> constructor <;> simp [Inst.operands, Inst.isTerm, huse]
  · have hle := bits_widthAt_le x
    simp [Bits.Feeds, Bits.Covers, Bits.after, written, endings, Inst.reads, Inst.operands, Operand.ends,
      Operand.brings, Reg.width, hg, hle]
  · refine hd.rewrite [_, _, _] g ?_ ?_ ?_
    · simp [Inst.operands, Operand.ends, hg]
    · simp [Settles, Inst.operands, Reg.width, huse, hbits]
    · simp [Inst.operands, Operand.ends, hg]

/-- **What an operation stands for is steady.** -/
theorem steady_opInsts {op : SampleOp} (ha : op.a < numRegs) (hc : op.c < numRegs) :
    ∃ is, opInsts op = .ok is ∧ Steady is := by
  obtain ⟨w, hw, hbits⟩ := exists_writable ha op.x.toNat
  obtain ⟨w', hw', hbits'⟩ := exists_writable hc op.x.toNat
  obtain ⟨w₁, hw₁, hbits₁⟩ := exists_writable ha 1
  have hua := inUse_gp ha
  have huc := inUse_gp hc
  simp only [opInsts, hw, hw', hw₁, readable_eq ha, readable_eq hc]
  split
  · exact ⟨_, rfl, Settles.steady (by simp [Settles, Inst.operands, Reg.width, hua, hbits]) rfl⟩
  · exact ⟨_, rfl, Settles.steady (by simp [Settles, Inst.operands, Reg.width, hua, huc, hbits]) rfl⟩
  · exact ⟨_, rfl, Settles.steady (by simp [Settles, Inst.operands, Reg.width, hua, huc, hbits]) rfl⟩
  · exact ⟨_, rfl, Settles.steady (by simp [Settles, Inst.operands, Reg.width, hua, huc, hbits]) rfl⟩
  · exact ⟨_, rfl, Settles.steady (by simp [Settles, Inst.operands, hua, huc]) rfl⟩
  · exact ⟨_, rfl, Settles.steady (by simp [Settles, Inst.operands, hua]) rfl⟩
  · -- a call, which may have no result
    refine ⟨_, rfl, Settles.steady ?_ rfl⟩
    split
    · simp [Settles, Inst.operands, Reg.width, hua, huc, hbits']
    · simp [Settles, Inst.operands, hua, huc]
  · exact ⟨_, rfl, steady_dropConst ha hbits _⟩
  · exact steady_narrowRun ha _
  · have hptr : Edition.e0.bits .ptr = 64 := rfl
    exact ⟨_, rfl, Settles.steady (by simp [Settles, Inst.operands, Reg.width, inUse_sp, hptr]) rfl⟩
  · exact ⟨_, rfl, Settles.steady (by simp [Settles, Inst.operands, Reg.width, hua, inUse_sp, hbits₁]) rfl⟩

end Operations

/-! ## Blocks -/

/-- The end of block `b` of `size`: nothing, or a terminator that goes to blocks that exist, the next one among them
if there is one. -/
inductive Closes (size b : Nat) : List Inst → Prop
  | fall : Closes size b []
  | leave {inst : Inst} : inst.isTerm = true → (∀ op ∈ inst.operands, InUse op.reg ∧ op.role = .read) →
      (∀ t ∈ inst.targets, t.toNat < size) →
      (b + 1 < size → ∃ ts, inst.exits? = some ts ∧ b + 1 ∈ ts) → Closes size b [inst]

theorem closes_terminator {size b : Nat} {block : SampleBlock} (hb : b < size) (hsize : size ≤ 2 ^ 32)
    (hcond : block.cond < numRegs) : ∃ is, terminator size b block = .ok is ∧ Closes size b is := by
  have htarget : (UInt32.ofNat (block.target.toNat % size)).toNat < size := by
    have := Nat.mod_lt block.target.toNat (show size > 0 by omega)
    have := Nat.mod_le (block.target.toNat % size) (2 ^ 32)
    rw [UInt32.toNat_ofNat']
    omega
  have hlabel : b + 1 < size → (UInt32.ofNat (b + 1)).toNat = b + 1 := by
    intro hnext
    rw [UInt32.toNat_ofNat', Nat.mod_eq_of_lt (by omega)]
  have huse := inUse_gp hcond
  simp only [terminator, readable_eq hcond]
  generalize UInt32.ofNat (block.target.toNat % size) = target at htarget ⊢
  generalize UInt32.ofNat (b + 1) = next at hlabel ⊢
  split
  · rename_i hnext
    have hlabel := hlabel hnext
    split
    · refine ⟨_, rfl, .leave rfl ?_ ?_ fun _ => ⟨_, rfl, ?_⟩⟩
      · simp [Inst.operands, huse]
      · simp [Inst.targets, htarget, hlabel, hnext]
      · -- the next block is the second target, also where both are the same
        split
        · rename_i heq
          simp [heq, hlabel]
        · simp [hlabel]
    · exact ⟨_, rfl, .fall⟩
  · rename_i hlast
    split
    · exact ⟨_, rfl, .fall⟩
    · refine ⟨_, rfl, .leave rfl ?_ ?_ fun h => absurd h hlast⟩
      · simp [Inst.operands]
      · simpa [Inst.targets] using htarget
    · refine ⟨_, rfl, .leave rfl ?_ ?_ fun h => absurd h hlast⟩
      · simp [Inst.operands, huse]
      · simp [Inst.targets]

/-- The numbers of the registers that a block names are those of registers in use. -/
def Within (block : SampleBlock) : Prop :=
  block.cond < numRegs ∧ ∀ op ∈ block.ops, op.a < numRegs ∧ op.c < numRegs

/-- Where every call has an answer that is related to its argument, the calls one after the other have these answers. -/
theorem exists_mapM {α β ε : Type} {f : α → Except ε β} {R : α → β → Prop} {xs : List α}
    (h : ∀ x ∈ xs, ∃ y, f x = .ok y ∧ R x y) : ∃ ys, xs.mapM f = .ok ys ∧ ys.length = xs.length ∧
      ∀ (k : Nat) (y : β), ys[k]? = some y → ∃ x, xs[k]? = some x ∧ R x y := by
  induction xs with
  | nil => exact ⟨[], rfl, rfl, fun k y hy => by cases hy⟩
  | cons x xs ih =>
    obtain ⟨⟨y, hy, hR⟩, hxs⟩ := List.forall_mem_cons.mp h
    obtain ⟨ys, hys, hlen, hall⟩ := ih hxs
    refine ⟨y :: ys, ?_, by rw [List.length_cons, List.length_cons, hlen], fun k z hz => ?_⟩
    · rw [List.mapM_cons, hy, hys]
      rfl
    · cases k with
      | zero =>
        cases hz
        exact ⟨x, rfl, hR⟩
      | succ k => exact hall k z hz

/-- The instructions of block `b` of `size`: steady code and an end. -/
def Body (size b : Nat) (is : List Inst) : Prop := ∃ code close, is = code ++ close ∧ Steady code ∧ Closes size b close

theorem body_blockInsts {size b : Nat} {block : SampleBlock} (hb : b < size) (hsize : size ≤ 2 ^ 32)
    (hblock : Within block) : ∃ is, blockInsts size b block = .ok is ∧ Body size b is := by
  have hops : ∀ op ∈ block.ops, ∃ is, opInsts op = .ok is ∧ Steady is := fun op hop =>
    steady_opInsts (hblock.2 op hop).1 (hblock.2 op hop).2
  obtain ⟨iss, hiss, -, hall⟩ := exists_mapM hops
  obtain ⟨close, hclose, hcloses⟩ := closes_terminator hb hsize hblock.1
  have hsteady : ∀ is ∈ iss, Steady is := by
    intro is his
    obtain ⟨k, hk⟩ := List.getElem?_of_mem his
    obtain ⟨-, -, hsteady⟩ := hall k is hk
    exact hsteady
  refine ⟨iss.flatten ++ close, ?_, iss.flatten, close, rfl, steady_flatten hsteady, hcloses⟩
  rw [blockInsts, hiss, hclose]
  rfl

/-! ## Units -/

/-- What stands before the body of block `b`. -/
def lead (b : Nat) : List Inst := if b = 0 then prologue else []

/-- The unit has the form of a sample. -/
structure IsSample (u : CompiledUnit) : Prop where
  edition : u.edition = .e0
  block : ∀ b < u.size, ∃ body, u.blockAt b = lead b ++ body ∧ Body u.size b body

/-- **Numbers of registers in use always make a unit of this form**, if its blocks can be counted with 32 bits. -/
theorem isSample_build {blocks : List SampleBlock} (hsize : blocks.length ≤ 2 ^ 32)
    (hwithin : ∀ block ∈ blocks, Within block) :
    ∃ u, build blocks = .ok u ∧ u.size = max 1 blocks.length ∧ IsSample u := by
  have hcalls : ∀ x ∈ blocks.zipIdx, ∃ is, blockInsts blocks.length x.2 x.1 = .ok is ∧ Body blocks.length x.2 is := by
    rintro ⟨block, b⟩ hmem
    have hget := List.mem_zipIdx_iff_getElem?.mp hmem
    exact body_blockInsts (List.getElem?_eq_some_iff.mp hget).1 hsize (hwithin block (List.mem_of_getElem? hget))
  obtain ⟨bodies, hbodies, hlen, hall⟩ := exists_mapM hcalls
  have hbody : ∀ b body, bodies[b]? = some body → Body blocks.length b body := by
    intro b body hb
    obtain ⟨x, hx, hbody⟩ := hall b body hb
    rw [List.getElem?_zipIdx, Option.map_eq_some_iff] at hx
    obtain ⟨block, -, rfl⟩ := hx
    simpa using hbody
  rw [List.length_zipIdx] at hlen
  cases bodies with
  | nil =>
    -- the prologue alone
    refine ⟨_, bind_of_ok hbodies _, by rw [← hlen]; rfl, rfl, fun b hb => ?_⟩
    have hb : b = 0 := Nat.lt_one_iff.mp hb
    subst hb
    exact ⟨[], rfl, [], [], rfl, steady_nil, .fall⟩
  | cons body rest =>
    have hmax : max 1 blocks.length = rest.length + 1 := by
      rw [← hlen, List.length_cons]
      omega
    rw [← hlen] at hbody
    refine ⟨_, bind_of_ok hbodies _, hmax.symm, rfl, fun b hb => ?_⟩
    cases b with
    | zero => exact ⟨body, rfl, hbody 0 body rfl⟩
    | succ b =>
      have hb : b < rest.length := Nat.lt_of_succ_lt_succ hb
      have hget : rest[b]? = some (rest.get ⟨b, hb⟩) := List.getElem?_eq_getElem hb
      exact ⟨_, CompiledUnit.blockAt_eq hget, hbody (b + 1) _ hget⟩

/-! ## What a block leaves written -/

theorem Closes.sustains {size b : Nat} (h : Closes size b is) (hd : Full d) : Sustains d is := by
  cases h with
  | fall => exact hd.sustains_nil
  | leave _ hops _ _ =>
    have hsettles : Settles _ := fun op hop => ⟨(hops op hop).1, Or.inl (hops op hop).2⟩
    exact hsettles.sustains hd

theorem Body.sustains {size b : Nat} (h : Body size b is) (hd : Full d) : Sustains d is := by
  obtain ⟨code, close, rfl, hcode, hclose⟩ := h
  exact (hcode.sustains hd).append hclose.sustains

/-- The prologue writes the registers in use, one after the other. -/
theorem mem_prologue : i ∈ prologue ↔ ∃ n < numRegs, i = .const (.gp (UInt8.ofNat n) .w64) (UInt64.ofNat n + 1) := by
  simp only [prologue, List.mem_map, List.mem_range, eq_comm]

theorem plain_of_mem_prologue (hi : i ∈ prologue) : Plain i := by
  obtain ⟨n, hn, rfl⟩ := mem_prologue.mp hi
  refine Settles.plain ?_ rfl
  simp [Settles, Inst.operands, Reg.width, inUse_gp hn, show Edition.e0.bits .w64 = 64 from rfl]

/-- What the prologue leaves behind, whatever is written before it besides the stack pointer. -/
theorem full_prologue (hsp : d Group.sp = some 64) : Full (Bits.after .e0 d prologue) := by
  intro r g hr hg
  rcases Bits.after_eq_or (e := .e0) d prologue g with ⟨heq, hno⟩ | ⟨op, hop, -, heq⟩
  · cases r with
    | sp =>
      cases hg
      rw [heq, hsp]
    | gp n w =>
      -- the prologue has a write of this number
      have hmem : Inst.const (.gp n .w64) (UInt64.ofNat n.toNat + 1) ∈ prologue :=
        mem_prologue.mpr ⟨n.toNat, hr, by rw [UInt8.ofNat_toNat]⟩
      have hends := hno ⟨.write, .gp n .w64⟩ (List.mem_flatMap.mpr ⟨_, hmem, by simp [Inst.operands]⟩)
      have hg : Reg.group? (.gp n .w64) = some g := hg
      simp [Operand.ends, hg] at hends
  · obtain ⟨i, hi, hop⟩ := List.mem_flatMap.mp hop
    obtain ⟨n, -, rfl⟩ := mem_prologue.mp hi
    rw [heq, List.mem_singleton.mp hop]
    rfl

theorem feeds_prologue (d : Bits) : Bits.Feeds .e0 d prologue := by
  simp [prologue, numRegs, List.range, List.range.loop, Bits.Feeds, Inst.reads, Inst.operands]

/-- What is written where a path enters block `b`: the stack pointer, and everything if `b` is not the first block. -/
structure Ready (b : Nat) (d : Bits) : Prop where
  stackPointer : d Group.sp = some 64
  full : b ≠ 0 → Full d

theorem Full.ready (hd : Full d) (b : Nat) : Ready b d := ⟨hd .sp Group.sp inUse_sp rfl, fun _ => hd⟩

theorem Ready.sustains_lead {b : Nat} (h : Ready b d) : Sustains d (lead b) := by
  unfold lead
  split
  · exact ⟨feeds_prologue d, full_prologue h.stackPointer⟩
  · rename_i hb
    exact (h.full hb).sustains_nil

namespace IsSample

variable {u : CompiledUnit} {b k : Nat}

/-- **A block that is entered ready reads what is written, and leaves everything written.** -/
theorem sustains (hu : IsSample u) (hb : b < u.size) (h : Ready b d) : Sustains d (u.blockAt b) := by
  obtain ⟨body, hblock, hbody⟩ := hu.block b hb
  rw [hblock]
  exact h.sustains_lead.append hbody.sustains

/-- An instruction is plain, or it is the terminator of its block. -/
theorem plain_or_closes (hu : IsSample u) (hat : u.At b k i) :
    Plain i ∨ k + 1 = (u.blockAt b).length ∧ Closes u.size b [i] := by
  obtain ⟨body, hblock, code, close, rfl, hcode, hclose⟩ := hu.block b hat.block_lt
  have hfront : ∀ j ∈ lead b ++ code, Plain j := by
    intro j hj
    rcases List.mem_append.mp hj with hj | hj
    · unfold lead at hj
      split at hj
      · exact plain_of_mem_prologue hj
      · cases hj
    · exact hcode.plain j hj
  have hlt := hat.lt
  rw [CompiledUnit.At, hblock] at hat
  rw [hblock] at hlt ⊢
  rw [← List.append_assoc] at hat hlt ⊢
  by_cases hk : k < (lead b ++ code).length
  · rw [List.getElem?_append_left hk] at hat
    exact Or.inl (hfront i (List.mem_of_getElem? hat))
  · rw [List.getElem?_append_right (Nat.le_of_not_lt hk)] at hat
    cases hclose with
    | fall => cases hat
    | leave hterm hops htargets hnext =>
      rw [List.length_append, List.length_singleton] at hlt ⊢
      have hzero : k - (lead b ++ code).length = 0 := by omega
      rw [hzero] at hat
      cases hat
      exact Or.inr ⟨by omega, .leave hterm hops htargets hnext⟩

/-- **No instruction of a sample is flawed.** -/
theorem structured (hu : IsSample u) : u.Structured := by
  rintro j rej ⟨b, k, i, -, hat, hflaw⟩
  rcases hu.plain_or_closes hat with hplain | ⟨hlast, hcloses⟩
  · cases hflaw with
    | register hop hn => exact not_numGp_le (hplain.inUse _ hop) hn
    | stackPointer hop hrole hadd =>
      rcases hplain.stackPointer _ hop rfl with hread | ⟨off, rfl⟩
      · exact hrole hread
      · exact hadd off rfl
    | terminator hterm _ => exact absurd (hterm.symm.trans hplain.notTerm) (by decide)
    | target ht _ =>
      rw [targets_of_notTerm hplain.notTerm] at ht
      cases ht
  · cases hcloses with
    | leave hterm hops htargets _ =>
      cases hflaw with
      | register hop hn => exact not_numGp_le (hops _ hop).1 hn
      | stackPointer hop hrole _ => exact hrole (hops _ hop).2
      | terminator _ hnot => exact hnot hlast
      | target ht hle =>
        have := htargets _ ht
        omega

/-- A block goes on to the next. -/
theorem next_mem_successors (hu : IsSample u) (hb : b + 1 < u.size) : b + 1 ∈ u.successors b := by
  by_cases hexits : ∃ i ts, (u.blockAt b).getLast? = some i ∧ i.exits? = some ts
  · obtain ⟨i, ts, hlast, hts⟩ := hexits
    rw [CompiledUnit.successors_of_exits hlast hts]
    rw [List.getLast?_eq_getElem?] at hlast
    rcases hu.plain_or_closes hlast with hplain | ⟨-, hcloses⟩
    · have hterm := (CompiledUnit.exits_targets hts).1
      exact absurd (hterm.symm.trans hplain.notTerm) (by decide)
    · cases hcloses with
      | leave _ _ _ hnext =>
        obtain ⟨ts', hts', hmem⟩ := hnext hb
        cases hts.symm.trans hts'
        exact hmem
  · rw [CompiledUnit.successors_of_no_exits, if_pos hb]
    · exact List.mem_singleton_self _
    · intro i hlast
      cases hts : i.exits? with
      | none => rfl
      | some ts => exact absurd ⟨i, ts, hlast, hts⟩ hexits

/-- **Every block can be reached.** -/
theorem exists_arrives (hu : IsSample u) (hb : b < u.size) : ∃ h, u.Arrives b h := by
  induction b with
  | zero => exact ⟨[], .entry⟩
  | succ b ih =>
    obtain ⟨h, harrives⟩ := ih (by omega)
    exact ⟨_, harrives.edge (hu.next_mem_successors hb)⟩

/-- **Every path arrives ready.** -/
theorem ready (hu : IsSample u) {h : List Inst} (hb : u.Arrives b h) : Ready b (Bits.after .e0 u.onEntry h) := by
  induction hb with
  | entry =>
    refine ⟨?_, fun h => absurd rfl h⟩
    simp [Bits.after, written_nil, CompiledUnit.onEntry, Edition.ptrBits]
  | @edge b c h hb hc ih =>
    rw [Bits.after_append]
    exact (hu.sustains (hb.lt hu.structured) ih).full.ready c

theorem supplied (hu : IsSample u) (hat : u.At b k i) {r : Reg} (hr : r ∈ i.reads) : u.Supplied b k r := by
  intro g hg w hw
  cases hw with
  | path hb =>
    obtain ⟨g', m, hg', hm, hle⟩ := (hu.sustains hat.block_lt (hu.ready hb)).feeds.covers hat hr
    cases hg.symm.trans hg'
    rw [written_append, hu.edition]
    exact ⟨m, hm, hle⟩
  | alone hno =>
    obtain ⟨h, hb⟩ := hu.exists_arrives hat.block_lt
    exact absurd hb (hno h)

theorem validate_ok (hu : IsSample u) : u.validate = .ok () :=
  hu.structured.validate_ok fun _ _ _ hat _ hr => hu.supplied hat hr

end IsSample

/-- **Samples are valid, and all their blocks can be reached.** Whatever the numbers of a sample are, as long as those of
registers are below six and the blocks can be counted with 32 bits, they make a unit with a block for each of theirs
(and one if there are none), it passes validation, and some path arrives at each of its blocks. -/
theorem build_valid_reachable (blocks : List SampleBlock) (hsize : blocks.length ≤ 2 ^ 32)
    (hregs : ∀ block ∈ blocks, block.cond < 6 ∧ ∀ op ∈ block.ops, op.a < 6 ∧ op.c < 6) :
    ∃ u, build blocks = .ok u ∧ u.size = max 1 blocks.length ∧ u.validate = .ok () ∧
      ∀ b < u.size, ∃ h, u.Arrives b h := by
  obtain ⟨u, hbuild, hblocks, hu⟩ := isSample_build hsize hregs
  exact ⟨u, hbuild, hblocks, hu.validate_ok, fun b hb => hu.exists_arrives hb⟩

/-- Narrow runs, a drop, a call and a move of the stack pointer, with a branch back to the first block. -/
def narrowLoop : List SampleBlock :=
  [⟨[⟨8, 0, 1, 5⟩, ⟨7, 2, 3, 9⟩], 1, 0, 3⟩, ⟨[⟨8, 4, 0, 255⟩, ⟨9, 0, 0, 3⟩], 3, 6, 2⟩, ⟨[⟨6, 4, 5, 8⟩], 1, 3, 0⟩]

theorem narrowLoop_build : narrowLoop.length ≤ 2 ^ 32 ∧
    (∀ block ∈ narrowLoop, block.cond < 6 ∧ ∀ op ∈ block.ops, op.a < 6 ∧ op.c < 6) ∧
    ∃ u, build narrowLoop = .ok u ∧ u.size = 3 ∧ u.validate = .ok () ∧ ∀ b < u.size, ∃ h, u.Arrives b h :=
  ⟨by decide, by decide, build_valid_reachable narrowLoop (by decide) (by decide)⟩

end Sample

/-! ## By calls on a builder -/

namespace Builder

/-- Adds instructions one after the other. -/
def pushAll (b : Builder) (insts : List Inst) : Builder := insts.foldl push b

/-- Opens a block and adds its instructions. -/
def addBlock (b : Builder) (insts : List Inst) : Builder := b.startBlock.pushAll insts

/-- Fills the open block, and then adds the other ones. -/
def addBlocks (b : Builder) : List (List Inst) → Builder
  | [] => b
  | body :: bodies => bodies.foldl addBlock (b.pushAll body)

theorem pushAll_eq (b : Builder) (insts : List Inst) : b.pushAll insts = { b with current := b.current ++ insts } := by
  unfold pushAll
  induction insts generalizing b with
  | nil => rw [List.foldl_nil, List.append_nil]
  | cons i insts ih =>
    rw [List.foldl_cons, ih, push]
    simp only [List.append_assoc, List.singleton_append]

theorem pushAll_append (b : Builder) (is js : List Inst) : b.pushAll (is ++ js) = (b.pushAll is).pushAll js :=
  List.foldl_append

/-- Blocks that are added one after the other stand behind the one that is open. -/
theorem build_foldl_addBlock (b : Builder) (bodies : List (List Inst)) :
    (bodies.foldl addBlock b).build = ⟨b.name, b.edition, b.closed ++ b.current :: bodies, by simp⟩ := by
  induction bodies generalizing b with
  | nil => rfl
  | cons body bodies ih =>
    rw [List.foldl_cons, ih, addBlock, pushAll_eq]
    simp only [startBlock, List.nil_append, List.append_assoc, List.singleton_append]

end Builder

namespace Sample

open Builder

/-- Adds block `i` of `size` to a unit under construction: its operations, and its terminator behind them. The block is
opened first, unless it is the one that is open from the start. -/
def pushBlock (size : Nat) (b : Builder) (i : Nat) (x : SampleBlock) : Except Fault Builder := do
  let b := if 0 < i then b.startBlock else b
  let b ← x.ops.foldlM (fun b op => do return b.pushAll (← opInsts op)) b
  return b.pushAll (← terminator size i x)

/-- Puts a sample together by calls on a builder. -/
def assemble (blocks : List SampleBlock) : Except Fault CompiledUnit := do
  let b := (Builder.new "arb" .e0).pushAll prologue
  let b ← blocks.zipIdx.foldlM (fun b x => pushBlock blocks.length b x.2 x.1) b
  return b.build

theorem foldlM_pushAll (ops : List SampleOp) (b : Builder) :
    ops.foldlM (fun b op => do return b.pushAll (← opInsts op)) b =
      (ops.mapM opInsts).map fun insts => b.pushAll insts.flatten := by
  induction ops generalizing b with
  | nil => rfl
  | cons op ops ih =>
    rw [List.foldlM_cons, List.mapM_cons]
    cases opInsts op with
    | error f => rfl
    | ok insts =>
      refine (ih (b.pushAll insts)).trans ?_
      cases ops.mapM opInsts with
      | error f => rfl
      | ok rest => exact congrArg Except.ok (pushAll_append b insts rest.flatten).symm

/-- The instructions of a block are added at its end. -/
theorem pushBlock_eq (size : Nat) (b : Builder) (i : Nat) (x : SampleBlock) : pushBlock size b i x =
    (blockInsts size i x).map fun body => (if 0 < i then b.startBlock else b).pushAll body := by
  simp only [pushBlock, blockInsts, foldlM_pushAll]
  cases x.ops.mapM opInsts with
  | error f => rfl
  | ok insts =>
    cases terminator size i x with
    | error f => rfl
    | ok term => exact congrArg Except.ok (pushAll_append _ insts.flatten term).symm

/-- Blocks behind the first one are opened and filled. -/
theorem foldlM_pushBlock (size : Nat) (blocks : List SampleBlock) (n : Nat) (b : Builder) :
    (blocks.zipIdx (n + 1)).foldlM (fun b x => pushBlock size b x.2 x.1) b =
      ((blocks.zipIdx (n + 1)).mapM fun x => blockInsts size x.2 x.1).map fun bodies => bodies.foldl addBlock b := by
  induction blocks generalizing n b with
  | nil => rfl
  | cons x blocks ih =>
    rw [List.zipIdx_cons, List.foldlM_cons, List.mapM_cons, pushBlock_eq, if_pos (Nat.succ_pos n)]
    cases blockInsts size (n + 1) x with
    | error f => rfl
    | ok body =>
      refine (ih (n + 1) (b.addBlock body)).trans ?_
      cases (blocks.zipIdx (n + 1 + 1)).mapM fun x => blockInsts size x.2 x.1 with
      | error f => rfl
      | ok bodies => rfl

/-- So all blocks are added as they are. -/
theorem foldlM_pushBlock_zero (size : Nat) (blocks : List SampleBlock) (b : Builder) :
    blocks.zipIdx.foldlM (fun b x => pushBlock size b x.2 x.1) b =
      (blocks.zipIdx.mapM fun x => blockInsts size x.2 x.1).map b.addBlocks := by
  cases blocks with
  | nil => rfl
  | cons x blocks =>
    rw [List.zipIdx_cons, List.foldlM_cons, List.mapM_cons, pushBlock_eq, if_neg (Nat.lt_irrefl 0)]
    cases blockInsts size 0 x with
    | error f => rfl
    | ok body =>
      refine (foldlM_pushBlock size blocks 0 (b.pushAll body)).trans ?_
      cases (blocks.zipIdx (0 + 1)).mapM fun x => blockInsts size x.2 x.1 with
      | error f => rfl
      | ok bodies => rfl

/-- **The calls on a builder make the same unit**, or break off in the same way. -/
theorem assemble_eq (blocks : List SampleBlock) : assemble blocks = build blocks := by
  have hbuild : build blocks = (blocks.zipIdx.mapM fun x => blockInsts blocks.length x.2 x.1) >>= fun bodies =>
      .ok (((Builder.new "arb" .e0).pushAll prologue).addBlocks bodies).build := by
    refine congrArg (_ >>= ·) (funext fun bodies => ?_)
    cases bodies with
    | nil => rfl
    | cons body bodies =>
      rw [addBlocks, build_foldl_addBlock, pushAll_eq, pushAll_eq]
      rfl
  rw [hbuild]
  simp only [assemble, foldlM_pushBlock_zero]
  cases blocks.zipIdx.mapM fun x => blockInsts blocks.length x.2 x.1 <;> rfl

end Sample

end ChillHints
