import ChillHints.Proofs.Position
import ChillHints.Proofs.Token
import Mathlib.Algebra.GroupWithZero.Nat
import Mathlib.Data.List.Forall2

/-!
# Reading a unit that was written

A written unit may be respelled before it is read: lines get blanks around them and blank lines between them, and
tags of instructions are changed or left out. `Loosened` says which lines come from which, and `Spelled` which texts
show a unit. Reading any of these texts gives the unit back, and what was read can be written and read again
(`parse_spelled`).

A line is read as the same thing however it is respelled: a label or a header is not changed at all
(`Trimmed.eq_of_tight`), and an instruction is left when its tag is dropped (`Trimmed.dropTag_eq`). The run of the
reader is then followed line by line along a block, and block by block along the unit.
-/

namespace ChillHints

open Text Numeral ChillHints.Parser

/-- Blanks that do not end the line. -/
def Margin (s : Text) : Prop := ∀ c ∈ s, isBlank c = true ∧ c ≠ '\n'

/-- What may stand before an instruction: nothing, or any text between `%` and a colon. -/
inductive Tag : Text → Prop where
  | absent : Tag []
  | present {w : Text} : ':' ∉ w → '\n' ∉ w → Tag ('%' :: w ++ [':'])

/-- The second line is the first one, or the first one with another tag if it has one. -/
inductive Respelled : Text → Text → Prop where
  | same (l : Text) : Respelled l l
  | retag {tag : Text} (n : Nat) (body : Text) : Tag tag →
    Respelled ("  %".toList ++ digits n ++ ':' :: body) ("  ".toList ++ tag ++ body)

/-- The second lines are the first ones, respelled, with margins around them and blank lines between them. -/
inductive Loosened : List Text → List Text → Prop where
  | nil : Loosened [] []
  | blank {a : Text} {ls ms : List Text} : Margin a → Loosened ls ms → Loosened ls (a :: ms)
  | line {l m a b : Text} {ls ms : List Text} :
    Respelled l m → Margin a → Margin b → Loosened ls ms → Loosened (l :: ls) ((a ++ m ++ b) :: ms)

namespace CompiledUnit

/-- The text shows the unit, whatever its tags, margins and blank lines are. The last line feed may have blanks after
it. -/
def Spelled (u : CompiledUnit) (s : Text) : Prop :=
  ∃ ms a, Loosened u.textLines ms ∧ Margin a ∧ s = ofLines ms ++ a

/-- A unit that can be told from its text: the name is one word, and each block has a label, which is a number of 32
bits. -/
structure Writable (u : CompiledUnit) : Prop where
  word_name : Word u.name.toList
  size_le : u.size ≤ 2 ^ 32

end CompiledUnit

/-! ### Single lines -/

-- `delta` here too: the equations of a definition with string literals are slow to derive
theorem instLine_eq (n : Nat) (i : Inst) : instLine (n, i) = "  %".toList ++ digits n ++ ':' :: ' ' :: i.text := by
  delta instLine
  simp

theorem CompiledUnit.headerLine_eq (u : CompiledUnit) : u.headerLine =
    "unit ".toList ++ (u.name.toList ++ ' ' :: ("edition".toList ++ ' ' :: digits u.edition.number)) := by
  delta headerLine
  simp

theorem Margin.isBlank_eq {s : Text} (h : Margin s) : ∀ c ∈ s, isBlank c = true := fun c hc => (h c hc).1

theorem Margin.not_mem {s : Text} (h : Margin s) : '\n' ∉ s := fun hmem => (h _ hmem).2 rfl

instance (s : Text) : Decidable (Margin s) :=
  decidable_of_iff (s.all (fun c => isBlank c && c != '\n') = true) (by simp [Margin])

theorem Margin.append {s t : Text} (hs : Margin s) (ht : Margin t) : Margin (s ++ t) := fun c hc =>
  (List.mem_append.1 hc).elim (hs c) (ht c)

theorem tag_digits (n : Nat) : Tag ('%' :: digits n ++ [':']) :=
  .present ((token_digits n).not_mem (by decide)) ((token_digits n).not_mem (by decide))

/-- What follows a tag is determined by the line, since a number has no colon. -/
theorem body_eq_of_tagged {m n : Nat} {s t : Text} (h : digits m ++ ':' :: s = digits n ++ ':' :: t) : s = t := by
  have hcut (k : Nat) (r : Text) : splitOnce [':'] (digits k ++ ':' :: r) = some (digits k, r) :=
    splitOnce_char r ((token_digits k).not_mem (by decide))
  have hboth := hcut m s
  rw [h, hcut n t] at hboth
  exact (Prod.mk.inj (Option.some.inj hboth)).2.symm

namespace Respelled

variable {l m : Text}

theorem eq_of_tight (h : Respelled l m) (hl : Tight l) : m = l := by
  cases h with
  | same => rfl
  | retag =>
    obtain ⟨c, hc, hblank⟩ := hl.head
    obtain rfl : ' ' = c := by simpa using hc
    cases hblank

theorem exists_tag {n : Nat} {i : Inst} (h : Respelled (instLine (n, i)) m) :
    ∃ tag, Tag tag ∧ m = "  ".toList ++ tag ++ ' ' :: i.text := by
  generalize hl : instLine (n, i) = l at h
  cases h with
  | same => exact ⟨_, tag_digits n, by simp [← hl, instLine_eq]⟩
  | @retag tag k body htag =>
    have hbody : ' ' :: i.text = body := body_eq_of_tagged (m := n) (n := k) (by simpa [instLine_eq] using hl)
    exact ⟨tag, htag, by rw [hbody]⟩

theorem not_mem (h : Respelled l m) (hl : '\n' ∉ l) : '\n' ∉ m := by
  cases h with
  | same => exact hl
  | retag n body htag =>
    cases htag with
    | absent => simpa using fun hbody => hl (by simp [hbody])
    | present _ hw => simpa [hw] using fun hbody => hl (by simp [hbody])

end Respelled

/-- The line `l`, respelled and given margins, is `k` when it is trimmed. -/
def Trimmed (l k : Text) : Prop := ∃ m a b, Respelled l m ∧ Margin a ∧ Margin b ∧ k = trim (a ++ m ++ b)

namespace Trimmed

variable {l k : Text}

theorem eq_of_tight (h : Trimmed l k) (hl : Tight l) : k = l := by
  obtain ⟨m, a, b, hm, ha, hb, rfl⟩ := h
  rw [hm.eq_of_tight hl, hl.trim_eq ha.isBlank_eq hb.isBlank_eq]

/-- The trimmed line of an instruction is the instruction, with a tag or without one. -/
theorem exists_eq {n : Nat} {i : Inst} (h : Trimmed (instLine (n, i)) k) :
    k = i.text ∨ ∃ w, ':' ∉ w ∧ k = '%' :: (w ++ ':' :: ' ' :: i.text) := by
  obtain ⟨m, a, b, hm, ha, hb, rfl⟩ := h
  obtain ⟨tag, htag, rfl⟩ := hm.exists_tag
  cases htag with
  | absent =>
    have hleft : Margin (a ++ "   ".toList) := ha.append (by decide)
    left
    simpa using i.tight_text.trim_eq hleft.isBlank_eq hb.isBlank_eq
  | @present w hcolon _ =>
    have hleft : Margin (a ++ "  ".toList) := ha.append (by decide)
    have htight : Tight ("%".toList ++ (w ++ ": ".toList) ++ i.text) :=
      Tight.enclose (.of_word (by decide)) _ i.tight_text
    refine .inr ⟨w, hcolon, ?_⟩
    simpa using htight.trim_eq hleft.isBlank_eq hb.isBlank_eq

theorem dropTag_eq {n : Nat} {i : Inst} (h : Trimmed (instLine (n, i)) k) : dropTag k = .ok i.text := by
  obtain rfl | ⟨w, hw, rfl⟩ := h.exists_eq
  · have hpercent : '%' ∉ i.text := i.not_mem_text (by decide) (by decide) (by decide)
    unfold dropTag
    split
    · next rest heq => simp [heq] at hpercent
    · rfl
  · have hsplit : splitOnce [':'] (w ++ ':' :: ' ' :: i.text) = some (w, ' ' :: i.text) :=
      splitOnce_char (' ' :: i.text) hw
    have hblank : Margin [' '] := by decide
    have htrim : trim (' ' :: i.text) = i.text := by
      simpa using i.tight_text.trim_eq (b := []) hblank.isBlank_eq (by simp)
    simp [dropTag, hsplit, htrim]

/-- The last character of an instruction is no colon. -/
theorem labelOf?_eq {n : Nat} {i : Inst} (h : Trimmed (instLine (n, i)) k) : labelOf? k = none := by
  obtain ⟨s, rfl⟩ : ∃ s, k = s ++ i.text := by
    obtain rfl | ⟨w, -, rfl⟩ := h.exists_eq
    · exact ⟨[], rfl⟩
    · exact ⟨'%' :: (w ++ ": ".toList), by simp⟩
  have hcolon : ':' ∉ i.text := i.not_mem_text (by decide) (by decide) (by decide)
  obtain ⟨c, hc, -⟩ := i.tight_text.last
  rw [labelOf?, Option.eq_none_iff_forall_ne_some]
  intro label hlabel
  have hlast : (label ++ [':']).getLast? = (s ++ i.text).getLast? := by
    rw [List.isSuffixOf?_eq_some_iff_append_eq.1 hlabel]
  obtain rfl : ':' = c := by simpa [hc] using hlast
  exact hcolon (List.mem_of_getLast? hc)

theorem ne_nil {n : Nat} {i : Inst} (h : Trimmed (instLine (n, i)) k) : k ≠ [] := by
  obtain rfl | ⟨w, -, rfl⟩ := h.exists_eq
  · exact i.tight_text.ne_nil
  · simp

end Trimmed

/-! ### All lines of a unit -/

theorem Loosened.cons {l m : Text} {ls ms : List Text} (h : Loosened ls ms) (hm : Respelled l m) :
    Loosened (l :: ls) (m :: ms) := by
  simpa using Loosened.line (a := []) (b := []) hm (by decide) (by decide) h

/-- Respelling keeps the lines apart from one another. -/
theorem Loosened.not_mem {ls ms : List Text} (h : Loosened ls ms) (hls : ∀ l ∈ ls, '\n' ∉ l) :
    ∀ m ∈ ms, '\n' ∉ m := by
  induction h with
  | nil => simp
  | blank ha _ ih => simpa [ha.not_mem] using ih hls
  | line hm ha hb _ ih =>
    have hrest := ih fun l hl => hls l (by simp [hl])
    simpa [ha.not_mem, hb.not_mem, hm.not_mem (hls _ (by simp))] using hrest

/-- Trimming takes the margins off again, and the blank lines out. -/
theorem Loosened.forall₂ {ls ms : List Text} (h : Loosened ls ms) (hls : ∀ l ∈ ls, ∀ k, Trimmed l k → k ≠ []) :
    List.Forall₂ Trimmed ls ((ms.map trim).filter fun k => !k.isEmpty) := by
  induction h with
  | nil => exact .nil
  | blank ha _ ih => simpa [trim_of_blank ha.isBlank_eq] using ih hls
  | @line l m a b ls ms hm ha hb _ ih =>
    have hk : Trimmed l (trim (a ++ m ++ b)) := ⟨m, a, b, hm, ha, hb, rfl⟩
    have hne : trim (a ++ m ++ b) ≠ [] := hls l (by simp) _ hk
    rw [List.map_cons, List.filter_cons_of_pos (by simpa using hne)]
    exact .cons hk (ih fun l hl => hls l (by simp [hl]))

namespace CompiledUnit

variable {u : CompiledUnit}

/-- A line of a unit is its header, a label or an instruction. -/
theorem mem_textLines {l : Text} (h : l ∈ u.textLines) :
    l = u.headerLine ∨ (∃ n, l = labelText n ++ [':']) ∨ ∃ x, l = instLine x := by
  simp only [textLines, blockLines, List.mem_cons, List.mem_flatten, List.mem_map] at h
  obtain rfl | ⟨_, ⟨⟨insts, b⟩, -, rfl⟩, hl⟩ := h
  · exact .inl rfl
  · obtain rfl | hl := List.mem_cons.1 hl
    · exact .inr (.inl ⟨b, rfl⟩)
    · obtain ⟨x, -, rfl⟩ := List.mem_map.1 hl
      exact .inr (.inr ⟨x, rfl⟩)

theorem tight_label (n : Nat) : Tight (labelText n ++ [':']) := by
  simpa using (Tight.of_word (token_labelText n).word).enclose [] (.of_word (by decide))

theorem tight_headerLine : Tight u.headerLine := by
  have hunit : Word "unit".toList := by decide
  have htight := (Tight.of_word hunit).enclose (' ' :: u.name.toList ++ " edition ".toList)
    (.of_word (token_digits u.edition.number).word)
  simpa [headerLine_eq] using htight

theorem not_mem_of_mem_textLines (hu : u.Writable) : ∀ l ∈ u.textLines, '\n' ∉ l := by
  intro l hl
  have hdigits (n : Nat) : '\n' ∉ digits n := (token_digits n).not_mem (by decide)
  obtain rfl | ⟨n, rfl⟩ | ⟨⟨n, i⟩, rfl⟩ := mem_textLines hl
  · have hname : '\n' ∉ u.name.toList := fun h => by
      cases not_blank hu.word_name _ h
    simp [headerLine_eq, hname, hdigits]
  · simp [(token_labelText n).not_mem (c := '\n') (by decide)]
  · simp [instLine_eq, hdigits, i.not_mem_text (c := '\n') (by decide) (by decide) (by decide)]

theorem ne_nil_of_mem_textLines : ∀ l ∈ u.textLines, ∀ k, Trimmed l k → k ≠ [] := by
  intro l hl k hk
  obtain rfl | ⟨n, rfl⟩ | ⟨x, rfl⟩ := mem_textLines hl
  · rw [hk.eq_of_tight tight_headerLine]
    exact tight_headerLine.ne_nil
  · rw [hk.eq_of_tight (tight_label n)]
    simp
  · exact hk.ne_nil

/-- The lines from which a spelling of the unit is read. -/
theorem Spelled.forall₂ {s : Text} (hs : u.Spelled s) (hu : u.Writable) :
    List.Forall₂ Trimmed u.textLines (lines s) := by
  obtain ⟨ms, a, hms, ha, rfl⟩ := hs
  have hline : ∀ m ∈ ms ++ [a], '\n' ∉ m := by
    have := hms.not_mem (not_mem_of_mem_textLines hu)
    simpa [or_imp, forall_and, ha.not_mem] using this
  rw [lines_ofLines_append hline]
  simpa [trim_of_blank ha.isBlank_eq] using hms.forall₂ ne_nil_of_mem_textLines

end CompiledUnit

/-! ### The run of the reader -/

namespace Parser

theorem readHeader_headerLine {u : CompiledUnit} (hu : u.Writable) (ls : List Text) :
    readHeader (u.headerLine :: ls) = .ok (u.name, u.edition, ls) := by
  have hprefix : "unit ".toList.isPrefixOf? u.headerLine =
      some (u.name.toList ++ ' ' :: ("edition".toList ++ ' ' :: digits u.edition.number)) :=
    List.isPrefixOf?_eq_some_iff_append_eq.2 u.headerLine_eq.symm
  have hwords : words (u.name.toList ++ ' ' :: ("edition".toList ++ ' ' :: digits u.edition.number)) =
      [u.name.toList, "edition".toList, digits u.edition.number] := by
    have hedition : Word "edition".toList := by decide
    rw [words_word_append hu.word_name (by decide), words_word_append hedition (by decide),
      words_of_word (token_digits _).word]
  have hread : readUInt32 (digits u.edition.number) = .ok 0 := readUInt32_digits 0
  rw [readHeader, hprefix]
  simp only [hwords, hread, String.ofList_toList]
  rfl

/-- The lines of the blocks from number `n` on. -/
def linesFrom (n : Nat) (bs : List (List (Nat × Inst))) : List Text :=
  ((bs.zipIdx n).map fun (insts, b) => blockLines b insts).flatten

theorem linesFrom_cons (n : Nat) (xs : List (Nat × Inst)) (bs : List (List (Nat × Inst))) :
    linesFrom n (xs :: bs) = (labelText n ++ [':']) :: (xs.map instLine ++ linesFrom (n + 1) bs) := by
  simp [linesFrom, blockLines]

/-- Along a block: each line adds its instruction. -/
theorem readBody_insts (b : Builder) {xs : List (Nat × Inst)} {ls ks : List Text}
    (h : List.Forall₂ Trimmed (xs.map instLine ++ ls) ks) :
    ∃ ks', List.Forall₂ Trimmed ls ks' ∧
      readBody b ks = readBody { b with current := b.current ++ xs.map Prod.snd } ks' := by
  induction xs generalizing b ks with
  | nil => exact ⟨ks, h, by simp⟩
  | cons x xs ih =>
    obtain ⟨k, ks, hk, hrest, rfl⟩ := List.forall₂_cons_left_iff.1 h
    have hstep : readBody b (k :: ks) = readBody (b.push x.2) ks := by
      rw [readBody, hk.labelOf?_eq, readInst_of_dropTag hk.dropTag_eq]
      rfl
    obtain ⟨ks', hks', hrun⟩ := ih (b.push x.2) hrest
    exact ⟨ks', hks', by rw [hstep, hrun]; simp [Builder.push]⟩

/-- The line of a label is read as its number. -/
theorem readLabel_lt {n : Nat} (line : Text) (h : n < 2 ^ 32) :
    ∃ l : Label, readLabel line (labelText n) = .ok l ∧ l.toNat = n := by
  have hn : (UInt32.ofNat n).toNat = n := UInt32.toNat_ofNat_of_lt' h
  exact ⟨UInt32.ofNat n, by rw [← readLabel_text line (UInt32.ofNat n), hn], hn⟩

theorem labelOf?_label (s : Text) : labelOf? (s ++ [':']) = some s :=
  List.isSuffixOf?_eq_some_iff_append_eq.2 rfl

/-- A label in order closes the open block. -/
theorem readBody_label (b : Builder) (ks : List Text) (h : b.closed.length + 1 < 2 ^ 32) :
    readBody b ((labelText (b.closed.length + 1) ++ [':']) :: ks) = readBody b.startBlock ks := by
  obtain ⟨l, hl, hnumber⟩ := readLabel_lt (labelText (b.closed.length + 1) ++ [':']) h
  have horder : l.toNat = b.startBlock.currentBlock := by simp [hnumber, Builder.currentBlock, Builder.startBlock]
  rw [readBody, labelOf?_label]
  simp only [hl, bind, Except.bind, if_pos horder]

/-- The first block is open from the start. -/
theorem readBlocks_label (b : Builder) (ks : List Text) :
    readBlocks b ((labelText 0 ++ [':']) :: ks) = readBody b ks := by
  obtain ⟨l, hl, hnumber⟩ := readLabel_lt (n := 0) (labelText 0 ++ [':']) (by decide)
  rw [readBlocks, labelOf?_label]
  simp only [hl, bind, Except.bind, if_pos hnumber]

/-- From the middle of the open block to the end of the unit: `xs` is what is left of the open block, and the
induction is on the blocks `bs` that follow it. -/
theorem readBody_eq (b : Builder) {xs : List (Nat × Inst)} {bs : List (List (Nat × Inst))} {ks : List Text}
    (hsize : b.closed.length + 1 + bs.length ≤ 2 ^ 32)
    (h : List.Forall₂ Trimmed (xs.map instLine ++ linesFrom (b.closed.length + 1) bs) ks) :
    ∃ b', readBody b ks = .ok b' ∧ b'.name = b.name ∧ b'.edition = b.edition ∧
      b'.build.blocks = b.closed ++ (b.current ++ xs.map Prod.snd) :: bs.map (·.map Prod.snd) := by
  induction bs generalizing b xs ks with
  | nil =>
    obtain ⟨ks', hks', hblock⟩ := readBody_insts b h
    obtain rfl : ks' = [] := List.forall₂_nil_left_iff.1 hks'
    exact ⟨_, hblock, rfl, rfl, rfl⟩
  | cons ys bs ih =>
    obtain ⟨ks', hks', hblock⟩ := readBody_insts b h
    rw [linesFrom_cons] at hks'
    obtain ⟨k, ks', hk, hrest, rfl⟩ := List.forall₂_cons_left_iff.1 hks'
    obtain rfl := hk.eq_of_tight (CompiledUnit.tight_label _)
    rw [List.length_cons] at hsize
    have hlabel := readBody_label { b with current := b.current ++ xs.map Prod.snd } ks' (by simp only; omega)
    have hclosed : b.closed.length + 1 = (b.closed ++ [b.current ++ xs.map Prod.snd]).length := by simp
    rw [hclosed] at hrest
    obtain ⟨b', hb', hname, hedition, hblocks⟩ :=
      ih (Builder.startBlock { b with current := b.current ++ xs.map Prod.snd })
        (by simp only [Builder.startBlock, ← hclosed]; omega) hrest
    exact ⟨b', by rw [hblock, hlabel, hb'], hname, hedition, by simpa [Builder.startBlock] using hblocks⟩

end Parser

namespace CompiledUnit

theorem ofText_of_spelled {u : CompiledUnit} {s : Text} (hu : u.Writable) (hs : u.Spelled s) : ofText s = .ok u := by
  obtain ⟨header, ks, hheader, hblocks, hlines⟩ := List.forall₂_cons_left_iff.1 (hs.forall₂ hu)
  obtain rfl := hheader.eq_of_tight tight_headerLine
  have hsize : u.numbered.length ≤ 2 ^ 32 := length_numberFrom 0 u.blocks ▸ hu.size_le
  have hinsts : u.numbered.map (·.map Prod.snd) = u.blocks := map_snd_numberFrom 0 u.blocks
  obtain ⟨xs, bs, hbs⟩ : ∃ xs bs, u.numbered = xs :: bs := by
    refine List.exists_cons_of_ne_nil fun hnil => u.blocks_ne_nil ?_
    simpa [hnil] using hinsts.symm
  change List.Forall₂ Trimmed (linesFrom 0 u.numbered) ks at hblocks
  rw [hbs, linesFrom_cons] at hblocks
  obtain ⟨k, ks, hk, hrest, rfl⟩ := List.forall₂_cons_left_iff.1 hblocks
  obtain rfl := hk.eq_of_tight (tight_label 0)
  obtain ⟨b, hb, hname, hedition, hread⟩ := readBody_eq (Builder.new u.name u.edition)
    (by simpa [hbs, Builder.new, Nat.add_comm] using hsize) hrest
  have hbuild : b.build = u := by
    have hall : b.build.blocks = u.blocks := by simpa [← hinsts, hbs, Builder.new] using hread
    obtain ⟨name, edition, blocks, hne⟩ := u
    simp only [Builder.build] at hall ⊢
    simp [hall, hname, hedition, Builder.new]
  rw [ofText, hlines, readHeader_headerLine hu]
  simp only [bind, Except.bind, readBlocks_label, hb]
  exact congrArg Except.ok hbuild

end CompiledUnit

/-! ### What can be read -/

namespace Parser

/-- A name that was read is one word, and so is the name of a unit without a header. -/
theorem word_of_readHeader {ls rest : List Text} {name : String} {e : Edition}
    (h : readHeader ls = .ok (name, e, rest)) : Word name.toList := by
  have htest : Word "test".toList := by decide
  unfold readHeader at h
  split at h
  · cases h
    exact htest
  split at h
  · cases h
    exact htest
  split at h
  next number hwords =>
    split at h
    · split at h
      · cases h
      split at h
      · cases h
        rw [String.toList_ofList]
        exact word_of_mem_words (by rw [hwords]; simp)
      · cases h
    · cases h
  · cases h

/-- A label is in order only if it has the number of the block that it opens, so numbers stay within 32 bits. -/
theorem readBody_keeps {b b' : Builder} {ls : List Text} (h : readBody b ls = .ok b') (hb : b.closed.length < 2 ^ 32) :
    b'.name = b.name ∧ b'.closed.length < 2 ^ 32 := by
  induction ls generalizing b with
  | nil =>
    cases h
    exact ⟨rfl, hb⟩
  | cons line ls ih =>
    rw [readBody] at h
    cases hlabel : labelOf? line with
    | none =>
      simp only [hlabel] at h
      obtain ⟨i, -, h⟩ := bind_eq_ok.1 h
      exact ih (b := b.push i) h hb
    | some label =>
      simp only [hlabel] at h
      obtain ⟨found, -, h⟩ := bind_eq_ok.1 h
      split at h
      next horder =>
        have hlt : b.startBlock.closed.length < 2 ^ 32 := calc
          b.startBlock.closed.length = found.toNat := horder.symm
          _ < 2 ^ 32 := found.toNat_lt
        exact ih (b := b.startBlock) h hlt
      · cases h

theorem readBlocks_keeps {b : Builder} {name : String} {e : Edition} {ls : List Text}
    (h : readBlocks (Builder.new name e) ls = .ok b) : b.name = name ∧ b.closed.length < 2 ^ 32 := by
  cases ls with
  | nil =>
    cases h
    exact ⟨rfl, Nat.two_pow_pos 32⟩
  | cons line ls =>
    rw [readBlocks] at h
    split at h
    · obtain ⟨found, -, h⟩ := bind_eq_ok.1 h
      split at h
      · exact readBody_keeps h (Nat.two_pow_pos 32)
      · cases h
    · cases h

end Parser

namespace CompiledUnit

theorem writable_of_parse {s : String} {u : CompiledUnit} (h : parse s = .ok u) : u.Writable := by
  rw [parse, ofText] at h
  obtain ⟨⟨name, e, ls⟩, hheader, h⟩ := bind_eq_ok.1 h
  obtain ⟨b, hblocks, h⟩ := bind_eq_ok.1 h
  cases h
  obtain ⟨rfl, hclosed⟩ := readBlocks_keeps hblocks
  have hsize : b.build.size = b.closed.length + 1 := by simp [size, Builder.build]
  exact ⟨word_of_readHeader hheader, hsize ▸ hclosed⟩

/-- A unit is spelled as it is written. -/
theorem spelled_render (u : CompiledUnit) : u.Spelled u.render.toList := by
  have hself (ls : List Text) : Loosened ls ls := by
    induction ls with
    | nil => exact .nil
    | cons l ls ih => exact ih.cons (.same l)
  exact ⟨u.textLines, [], hself _, by decide, by simp [render, text, ofLines]⟩

/-- Writing and reading are inverse. Every text that shows a unit is read as this unit, whatever its margins, blank
lines and tags are, and every unit that was read is read again from what is written for it. -/
theorem parse_spelled :
    (∀ (u : CompiledUnit) (s : String), u.Writable → u.Spelled s.toList → parse s = .ok u) ∧
      ∀ (s : String) (u : CompiledUnit), parse s = .ok u → parse u.render = .ok u := by
  have hread (u : CompiledUnit) (s : String) (hu : u.Writable) (hs : u.Spelled s.toList) : parse s = .ok u :=
    ofText_of_spelled hu hs
  exact ⟨hread, fun s u h => hread u u.render (writable_of_parse h) u.spelled_render⟩

/-- A unit with an empty block and with numbers at the ends of their ranges. -/
def corners : CompiledUnit where
  name := "corners"
  edition := .e0
  blocks := [[.const (.gp 255 .ptr) 0xffffffffffffffff, .spAdd (-0x80000000)], []]
  blocks_ne_nil := by simp

/-- The lines of `corners` with a blank line and with other margins and tags. -/
def cornersLoosened : List Text :=
  [" \tunit corners edition 0".toList, [], "bb0: \r".toList,
    "  %the first, = bb1: r255.ptr = const 18446744073709551615".toList, "   sp_add -2147483648".toList, "bb1:".toList]

theorem loosened_corners : Loosened corners.textLines cornersLoosened := by
  have hwritten : corners.textLines = ["unit corners edition 0".toList, "bb0:".toList,
      "  %".toList ++ digits 0 ++ ':' :: " r255.ptr = const 18446744073709551615".toList,
      "  %".toList ++ digits 1 ++ ':' :: " sp_add -2147483648".toList, "bb1:".toList] := by decide +kernel
  have hloosened : cornersLoosened = [" \t".toList ++ "unit corners edition 0".toList ++ [], [],
      [] ++ "bb0:".toList ++ " \r".toList,
      "  ".toList ++ ('%' :: "the first, = bb1".toList ++ [':']) ++ " r255.ptr = const 18446744073709551615".toList,
      "  ".toList ++ [] ++ " sp_add -2147483648".toList, "bb1:".toList] := by decide +kernel
  rw [hwritten, hloosened]
  have htag : Tag ('%' :: "the first, = bb1".toList ++ [':']) := .present (by decide) (by decide)
  have hbb1 := Loosened.nil.cons (.same "bb1:".toList)
  refine .line (.same _) (by decide) (by decide) (.blank (by decide) (.line (.same _) (by decide) (by decide) ?_))
  exact (hbb1.cons (.retag 1 _ .absent)).cons (.retag 0 _ htag)

theorem corners_parse :
    corners.Writable ∧ corners.Spelled (ofLines cornersLoosened ++ [' ']) ∧
      parse (String.ofList (ofLines cornersLoosened ++ [' '])) = .ok corners ∧
      parse corners.render = .ok corners := by
  have hwritable : corners.Writable := ⟨by decide, by decide⟩
  have hspelled : corners.Spelled (ofLines cornersLoosened ++ [' ']) :=
    ⟨cornersLoosened, [' '], loosened_corners, by decide, rfl⟩
  have hparse : parse (String.ofList (ofLines cornersLoosened ++ [' '])) = .ok corners :=
    parse_spelled.1 corners _ hwritable (by rwa [String.toList_ofList])
  exact ⟨hwritable, hspelled, hparse, parse_spelled.2 _ _ hparse⟩

end CompiledUnit

end ChillHints
