import ChillHints.Text.Numeral
import Mathlib.Data.List.Basic

/-!
# Cutting a text and putting it together

Each function that cuts a text undoes one way of putting texts together: `trim` gives back what blanks were put
around, `words` what blanks were put between, `splitOnce` what a separator was put between, and `pieces` the lines
to which line feeds were added. Reading a numeral gives back the number whose digits were written.
-/

namespace ChillHints

namespace Text

/-- At least one character, and all of class `p`. -/
structure Of (p : Char → Bool) (s : Text) : Prop where
  ne_nil : s ≠ []
  all : ∀ c ∈ s, p c = true

namespace Of

variable {p q : Char → Bool} {s t : Text} {c : Char}

instance : Decidable (Of p s) :=
  decidable_of_iff ((!s.isEmpty && s.all p) = true)
    ⟨fun h => ⟨by simp_all, by simp_all⟩, fun h => by simpa using ⟨h.ne_nil, h.all⟩⟩

theorem not_mem (h : Of p s) (hc : p c = false) : c ∉ s := fun hmem => by
  rw [h.all c hmem] at hc
  cases hc

theorem cons (hc : p c = true) (h : Of p s) : Of p (c :: s) :=
  ⟨by simp, by simpa [hc] using h.all⟩

theorem append (hs : Of p s) (ht : Of p t) : Of p (s ++ t) :=
  ⟨by simp [hs.ne_nil], fun c hc => (List.mem_append.1 hc).elim (hs.all c) (ht.all c)⟩

theorem mono (h : Of p s) (hpq : ∀ c, p c = true → q c = true) : Of q s :=
  ⟨h.ne_nil, fun c hc => hpq c (h.all c hc)⟩

end Of

/-- A word has no blank. -/
abbrev Word : Text → Prop := Of fun c => !isBlank c

theorem not_blank {w : Text} (h : Word w) : ∀ c ∈ w, isBlank c = false := by simpa using h.all

/-- No blank at either end. -/
structure Tight (s : Text) : Prop where
  head : ∃ c, s.head? = some c ∧ isBlank c = false
  last : ∃ c, s.getLast? = some c ∧ isBlank c = false

namespace Tight

variable {s t : Text}

theorem ne_nil (h : Tight s) : s ≠ [] := by
  obtain ⟨c, hc, -⟩ := h.head
  rintro rfl
  simp at hc

/-- What stands between two tight texts does not matter. -/
theorem enclose (hs : Tight s) (m : Text) (ht : Tight t) : Tight (s ++ m ++ t) := by
  obtain ⟨c, hc, hblank⟩ := hs.head
  obtain ⟨d, hd, hblank'⟩ := ht.last
  exact ⟨⟨c, by simp [hc], hblank⟩, ⟨d, by simp [hd], hblank'⟩⟩

theorem of_word (h : Word s) : Tight s := by
  have hhead : s.head? = some (s.head h.ne_nil) := List.head?_eq_some_head h.ne_nil
  have hlast : s.getLast? = some (s.getLast h.ne_nil) := List.getLast?_eq_some_getLast h.ne_nil
  exact ⟨⟨_, hhead, not_blank h _ (List.head_mem _)⟩, ⟨_, hlast, not_blank h _ (List.getLast_mem _)⟩⟩

theorem dropWhile_eq (h : Tight s) (t : Text) : (s ++ t).dropWhile isBlank = s ++ t := by
  obtain ⟨c, hc, hblank⟩ := h.head
  obtain ⟨s, rfl⟩ := List.head?_eq_some_iff.1 hc
  simp [hblank]

theorem reverse (h : Tight s) : Tight s.reverse :=
  ⟨by simpa using h.last, by simpa using h.head⟩

/-- Blanks around a tight text are what `trim` removes. -/
theorem trim_eq {a b : Text} (hs : Tight s) (ha : ∀ c ∈ a, isBlank c = true) (hb : ∀ c ∈ b, isBlank c = true) :
    trim (a ++ s ++ b) = s := by
  have hleft : (a ++ s ++ b).dropWhile isBlank = s ++ b := by
    rw [List.append_assoc, List.dropWhile_append_of_pos ha, hs.dropWhile_eq]
  have hright : (b.reverse ++ s.reverse).dropWhile isBlank = s.reverse := by
    rw [List.dropWhile_append_of_pos (by simpa using hb)]
    simpa using hs.reverse.dropWhile_eq []
  rw [trim, hleft, trimRight, List.reverse_append, hright, List.reverse_reverse]

theorem trim_self (hs : Tight s) : trim s = s := by
  simpa using hs.trim_eq (a := []) (b := []) (by simp) (by simp)

end Tight

theorem trim_of_blank {s : Text} (h : ∀ c ∈ s, isBlank c = true) : trim s = [] := by
  rw [trim, ← List.append_nil s, List.dropWhile_append_of_pos h]
  rfl

/-! ### Pieces, words and lines -/

section Pieces

variable {p : Char → Bool} {w s : Text} {c : Char}

theorem pieces_of_none (h : ∀ x ∈ w, p x = false) : pieces p w = [w] := by
  induction w with
  | nil => rfl
  | cons x w ih =>
    rw [pieces, h x (by simp), ih fun y hy => h y (by simp [hy])]
    rfl

theorem pieces_append_cons (h : ∀ x ∈ w, p x = false) (hc : p c = true) :
    pieces p (w ++ c :: s) = w :: pieces p s := by
  induction w with
  | nil => simp [pieces, hc]
  | cons x w ih =>
    rw [List.cons_append, pieces, h x (by simp), ih fun y hy => h y (by simp [hy])]
    rfl

theorem not_mem_of_mem_pieces (h : w ∈ pieces p s) : ∀ x ∈ w, p x = false := by
  induction s generalizing w with
  | nil =>
    obtain rfl : w = [] := by simpa [pieces] using h
    simp
  | cons c s ih =>
    cases hc : p c with
    | true =>
      obtain rfl | h : w = [] ∨ w ∈ pieces p s := by simpa [pieces, hc] using h
      · simp
      · exact ih h
    | false =>
      cases hs : pieces p s with
      | nil => simp [pieces, hc, hs] at h
      | cons v vs =>
        obtain rfl | h : w = c :: v ∨ w ∈ vs := by simpa [pieces, hc, hs] using h
        · intro x hx
          obtain rfl | hx := List.mem_cons.1 hx
          · exact hc
          · exact ih (by simp [hs]) x hx
        · exact ih (by simp [hs, h])

end Pieces

theorem words_of_word {w : Text} (h : Word w) : words w = [w] := by
  simp [words, pieces_of_none (not_blank h), h.ne_nil]

theorem words_word_append {w s : Text} {c : Char} (h : Word w) (hc : isBlank c = true) :
    words (w ++ c :: s) = w :: words s := by
  simp [words, pieces_append_cons (not_blank h) hc, h.ne_nil]

theorem words_blank_cons {s : Text} {c : Char} (hc : isBlank c = true) : words (c :: s) = words s := by
  simp [words, pieces, hc]

theorem word_of_mem_words {w s : Text} (h : w ∈ words s) : Word w := by
  obtain ⟨hmem, hne⟩ := List.mem_filter.1 h
  exact ⟨by simpa using hne, by simpa using not_mem_of_mem_pieces hmem⟩

/-- A text given by its lines. -/
def ofLines (ls : List Text) : Text := (ls.map (· ++ ['\n'])).flatten

/-- What stands after the last line feed counts as a line. -/
theorem lines_ofLines_append {ls : List Text} {a : Text} (h : ∀ l ∈ ls ++ [a], '\n' ∉ l) :
    lines (ofLines ls ++ a) = ((ls ++ [a]).map trim).filter fun l => !l.isEmpty := by
  have hne {l : Text} (hl : '\n' ∉ l) : ∀ c ∈ l, (c == '\n') = false := fun c hc => by
    have : c ≠ '\n' := fun e => hl (e ▸ hc)
    simpa using this
  have hpieces : pieces (· == '\n') (ofLines ls ++ a) = ls ++ [a] := by
    induction ls with
    | nil => exact pieces_of_none (hne (h a (by simp)))
    | cons l ls ih =>
      have hsplit : ofLines (l :: ls) ++ a = l ++ '\n' :: (ofLines ls ++ a) := by simp [ofLines]
      rw [hsplit, pieces_append_cons (hne (h l (by simp))) rfl, ih fun l' hl' => h l' (List.mem_cons_of_mem l hl')]
      rfl
  rw [lines, hpieces]

/-! ### Separators -/

theorem eq_append_of_splitOnce {sep s before after : Text} (h : splitOnce sep s = some (before, after)) :
    s = before ++ sep ++ after := by
  induction s generalizing before with
  | nil => simp [splitOnce] at h
  | cons c s ih =>
    rw [splitOnce] at h
    cases hp : sep.isPrefixOf? (c :: s) with
    | some rest =>
      obtain ⟨rfl, rfl⟩ : [] = before ∧ rest = after := by simpa [hp] using h
      simpa using (List.isPrefixOf?_eq_some_iff_append_eq.1 hp).symm
    | none =>
      obtain ⟨b, hb, rfl⟩ : ∃ b, splitOnce sep s = some (b, after) ∧ c :: b = before := by simpa [hp] using h
      simpa using ih hb

/-- A text that lacks a character of the separator is not cut. -/
theorem splitOnce_eq_none {sep s : Text} {c : Char} (hc : c ∈ sep) (hs : c ∉ s) : splitOnce sep s = none := by
  cases h : splitOnce sep s with
  | none => rfl
  | some ends => exact absurd (by rw [eq_append_of_splitOnce h]; simp [hc]) hs

/-- The first separator is found where it was put, if its first character does not occur before. -/
theorem splitOnce_append {c : Char} {w : Text} (sep rest : Text) (h : c ∉ w) :
    splitOnce (c :: sep) (w ++ c :: sep ++ rest) = some (w, rest) := by
  induction w with
  | nil =>
    have hp : (c :: sep).isPrefixOf? (c :: sep ++ rest) = some rest := List.isPrefixOf?_eq_some_iff_append_eq.2 rfl
    rw [List.cons_append] at hp
    simp [splitOnce, hp]
  | cons x w ih =>
    have hx : (c == x) = false := by
      have : c ≠ x := fun e => h (by simp [e])
      simpa using this
    have hw : c ∉ w := fun hmem => h (by simp [hmem])
    have hrest : splitOnce (c :: sep) (w ++ c :: (sep ++ rest)) = some (w, rest) := by simpa using ih hw
    simp [splitOnce, List.isPrefixOf?, hx, hrest]

theorem splitOnce_char {c : Char} {w : Text} (rest : Text) (h : c ∉ w) :
    splitOnce [c] (w ++ c :: rest) = some (w, rest) := by
  simpa using splitOnce_append [] rest h

end Text

/-! ### Numerals -/

namespace Numeral

theorem digits_ne_nil (n : Nat) : digits n ≠ [] := Nat.toDigits_ne_nil

theorem isDigit_of_mem_digits {n : Nat} {c : Char} (h : c ∈ digits n) : c.isDigit = true :=
  Nat.isDigit_of_mem_toDigits (by decide) (by decide) h

theorem le_ofDigitChars (s : Text) (acc : Nat) : acc ≤ Nat.ofDigitChars 10 s acc := by
  induction s generalizing acc with
  | nil => simp [Nat.ofDigitChars]
  | cons c s ih =>
    rw [Nat.ofDigitChars_cons]
    exact Nat.le_trans (by omega) (ih _)

/-- The value never shrinks on the way, so a last value in range means that all were. -/
theorem readDigits_eq {max acc : Nat} {s : Text} (hs : ∀ c ∈ s, c.isDigit = true)
    (hle : Nat.ofDigitChars 10 s acc ≤ max) : readDigits max acc s = .ok (Nat.ofDigitChars 10 s acc) := by
  induction s generalizing acc with
  | nil => rfl
  | cons c s ih =>
    rw [Nat.ofDigitChars_cons, Nat.mul_comm] at hle ⊢
    have hvalue := le_ofDigitChars s (acc * 10 + (c.toNat - '0'.toNat))
    rw [readDigits, if_pos (hs c (by simp)), if_pos (by omega)]
    exact ih (fun d hd => hs d (by simp [hd])) hle

theorem readDigits_digits {max n : Nat} (h : n ≤ max) : readDigits max 0 (digits n) = .ok n := by
  have hvalue : Nat.ofDigitChars 10 (digits n) 0 = n := Nat.ofDigitChars_toDigits (by decide) (by decide)
  rw [readDigits_eq (fun c => isDigit_of_mem_digits) (by omega), hvalue]

theorem exists_digits_eq_cons (n : Nat) : ∃ c s, digits n = c :: s ∧ c.isDigit = true := by
  obtain ⟨c, s, hs⟩ := List.exists_cons_of_ne_nil (digits_ne_nil n)
  exact ⟨c, s, hs, isDigit_of_mem_digits (n := n) (by simp [hs])⟩

theorem isDigit_ne {c d : Char} (hc : c.isDigit = true) (hd : d.isDigit = false) : c ≠ d := by
  rintro rfl
  simp [hc] at hd

/-- A numeral begins with a digit, so no plus is taken off it. -/
theorem readNat_digits {max n : Nat} (h : n ≤ max) : readNat max (digits n) = .ok n := by
  obtain ⟨c, s, hs, hc⟩ := exists_digits_eq_cons n
  have hplus : c ≠ '+' := isDigit_ne hc (by decide)
  have hread : readDigits max 0 (c :: s) = .ok n := hs ▸ readDigits_digits h
  simp [hs, readNat, hplus, hread]

theorem readInt_signed {bound : Nat} {i : Int} (hlow : -bound ≤ i) (hhigh : i < bound) :
    readInt bound (signed i) = .ok i := by
  cases i with
  | ofNat n =>
    obtain ⟨c, s, hs, hc⟩ := exists_digits_eq_cons n
    have hminus : c ≠ '-' := isDigit_ne hc (by decide)
    rw [Int.ofNat_eq_natCast] at hhigh
    have hread : readNat (bound - 1) (c :: s) = .ok n := hs ▸ readNat_digits (by omega)
    simp [signed, hs, readInt, hminus, hread, Except.map]
  | negSucc n =>
    obtain ⟨c, s, hs, -⟩ := exists_digits_eq_cons (n + 1)
    have hread : readDigits bound 0 (c :: s) = .ok (n + 1) := hs ▸ readDigits_digits (by omega)
    simp [signed, hs, readInt, hread, Int.negSucc_eq]

theorem readUInt8_digits (n : UInt8) : readUInt8 (digits n.toNat) = .ok n := by
  have : n.toNat ≤ 0xff := Nat.le_of_lt_succ n.toNat_lt
  simp [readUInt8, readNat_digits this, Except.map]

theorem readUInt32_digits (n : UInt32) : readUInt32 (digits n.toNat) = .ok n := by
  have : n.toNat ≤ 0xffffffff := Nat.le_of_lt_succ n.toNat_lt
  simp [readUInt32, readNat_digits this, Except.map]

theorem readUInt64_digits (n : UInt64) : readUInt64 (digits n.toNat) = .ok n := by
  have : n.toNat ≤ 0xffffffffffffffff := Nat.le_of_lt_succ n.toNat_lt
  simp [readUInt64, readNat_digits this, Except.map]

theorem readInt32_signed (i : Int32) : readInt32 (signed i.toInt) = .ok i := by
  have hread : readInt 0x80000000 (signed i.toInt) = .ok i.toInt := readInt_signed i.le_toInt i.toInt_lt
  simp [readInt32, hread, Except.map]

end Numeral

end ChillHints
