import ChillHints.Code.Parser
import ChillHints.Code.Printer
import ChillHints.Proofs.Text

/-!
# Reading an instruction that was written

Every word of a written instruction is a `Token`: it has none of the characters that stand between words, end a label
or begin a tag. So the words can be told apart (`Spells.operandWords_eq`), and a written line cannot be taken for
another kind of line. An instruction is determined by its destination, its keyword and its arguments: writing lays
these out (`Inst.exists_spells`), and reading takes them apart again (`readInst_of_dropTag`).
-/

namespace ChillHints

open Text Numeral ChillHints.Parser

/-- A character of a name, a keyword or a numeral. -/
def isPlain (c : Char) : Bool := !isBlank c && !",()=:%".toList.contains c

/-- A character that stands between two words of an instruction. -/
def isGap (c : Char) : Bool := " ,()".toList.contains c

def isParen (c : Char) : Bool := c == '(' || c == ')'

theorem isGap_of_isParen {c : Char} (h : isParen c = true) : isGap c = true := by
  grind [isParen, isGap]

theorem not_isBlank_of_isParen {c : Char} (h : isParen c = true) : isBlank c = false := by
  obtain rfl | rfl : c = '(' ∨ c = ')' := by simpa [isParen] using h
  · decide
  · decide

theorem isPlain_of_isDigit {c : Char} (h : c.isDigit = true) : isPlain c = true := by
  have hall : ∀ n < 58, 48 ≤ n → isPlain (Char.ofNat n) = true := by decide
  obtain ⟨hlow, hhigh⟩ := Char.isDigit_iff_toNat.1 h
  rw [← Char.ofNat_toNat c]
  exact hall c.toNat (Nat.lt_succ_of_le hhigh) hlow

/-- A word of plain characters. -/
abbrev Token : Text → Prop := Of isPlain

theorem Token.word {w : Text} (h : Token w) : Word w :=
  h.mono fun c hc => by
    rw [isPlain, Bool.and_eq_true] at hc
    exact hc.1

theorem token_digits (n : Nat) : Token (digits n) :=
  ⟨digits_ne_nil n, fun _ hc => isPlain_of_isDigit (isDigit_of_mem_digits hc)⟩

theorem token_signed (i : Int) : Token (signed i) := by
  cases i with
  | ofNat n => exact token_digits n
  | negSucc n => exact (token_digits (n + 1)).cons (by decide)

theorem token_labelText (n : Nat) : Token (labelText n) :=
  ((token_digits n).cons (by decide)).cons (by decide)

theorem token_reg (r : Reg) : Token r.text := by
  cases r with
  | gp i w =>
    have hsuffix : Token ('.' :: w.suffix) := by cases w <;> decide
    exact ((token_digits i.toNat).append hsuffix).cons (by decide)
  | sp => decide

theorem token_binOp (op : BinOp) : Token op.text := by cases op <;> decide

/-! ### Words with gaps between them -/

/-- What a character counts as in an operand list. -/
def blanked (c : Char) : Char := if c == ',' || c == '(' || c == ')' then ' ' else c

theorem operandWords_eq (s : Text) : operandWords s = words (s.map blanked) := rfl

theorem operandWords_nil : operandWords [] = [] := rfl

theorem blanked_of_isGap {c : Char} (h : isGap c = true) : blanked c = ' ' := by
  grind [isGap, blanked]

theorem blanked_of_isPlain {c : Char} (h : isPlain c = true) : blanked c = c := by
  grind [isPlain, blanked]

theorem Token.map_blanked {w : Text} (hw : Token w) : w.map blanked = w :=
  (List.map_congr_left fun c hc => blanked_of_isPlain (hw.all c hc)).trans (List.map_id w)

theorem operandWords_gap_append {gap s : Text} (hgap : ∀ c ∈ gap, isGap c = true) :
    operandWords (gap ++ s) = operandWords s := by
  induction gap with
  | nil => rfl
  | cons c gap ih =>
    have hc : blanked c = ' ' := blanked_of_isGap (hgap c (by simp))
    rw [List.cons_append, operandWords_eq, List.map_cons, hc, words_blank_cons (by decide)]
    exact ih fun d hd => hgap d (by simp [hd])

theorem operandWords_token {w : Text} (hw : Token w) : operandWords w = [w] := by
  rw [operandWords_eq, hw.map_blanked, words_of_word hw.word]

theorem operandWords_token_append {w gap s : Text} (hw : Token w) (hgap : Of isGap gap) :
    operandWords (w ++ gap ++ s) = w :: operandWords s := by
  obtain ⟨c, gap, rfl⟩ := List.exists_cons_of_ne_nil hgap.ne_nil
  have hc : blanked c = ' ' := blanked_of_isGap (hgap.all c (by simp))
  have hrest : operandWords (gap ++ s) = operandWords s :=
    operandWords_gap_append fun d hd => hgap.all d (by simp [hd])
  rw [List.append_assoc, List.cons_append, operandWords_eq, List.map_append, List.map_cons, hw.map_blanked, hc,
    words_word_append hw.word (by decide), ← operandWords_eq, hrest]

/-- `s` shows the words `ws` with gaps between them, and perhaps parentheses after the last. -/
inductive Spells : Text → List Text → Prop where
  | last {w : Text} : Token w → Spells w [w]
  | close {w parens : Text} : Token w → Of isParen parens → Spells (w ++ parens) [w]
  | next {w gap s : Text} {ws : List Text} : Token w → Of isGap gap → Spells s ws → Spells (w ++ gap ++ s) (w :: ws)

namespace Spells

variable {s : Text} {ws : List Text}

theorem operandWords_eq (h : Spells s ws) : operandWords s = ws := by
  induction h with
  | last hw => exact operandWords_token hw
  | @close w parens hw hparens =>
    have hwords := operandWords_token_append (s := []) hw (hparens.mono fun _ => isGap_of_isParen)
    simpa [operandWords_nil] using hwords
  | next hw hgap _ ih => rw [operandWords_token_append hw hgap, ih]

theorem tight (h : Spells s ws) : Tight s := by
  induction h with
  | last hw => exact .of_word hw.word
  | close hw hparens =>
    have hword := hparens.mono (q := fun c => !isBlank c) fun c hc => by simp [not_isBlank_of_isParen hc]
    simpa using (Tight.of_word hw.word).enclose [] (.of_word hword)
  | next hw _ _ ih => exact (Tight.of_word hw.word).enclose _ ih

/-- Only plain characters and gaps. -/
theorem not_mem (h : Spells s ws) {c : Char} (hplain : isPlain c = false) (hgap : isGap c = false) : c ∉ s := by
  induction h with
  | last hw => exact hw.not_mem hplain
  | close hw hparens =>
    have hparens := (hparens.mono fun _ => isGap_of_isParen).not_mem hgap
    simp [hw.not_mem hplain, hparens]
  | next hw hsep _ ih => simp [hw.not_mem hplain, hsep.not_mem hgap, ih]

end Spells

/-- An operand list has commas between its words. It ends as a single word would. -/
theorem spells_join {close : Text} {ws : List Text} (hws : ∀ v ∈ ws, Token v) (hne : ws ≠ [])
    (hclose : ∀ {w}, Token w → Spells (w ++ close) [w]) : Spells (join ", ".toList ws ++ close) ws := by
  induction ws with
  | nil => exact absurd rfl hne
  | cons v ws ih =>
    have hv : Token v := hws v (by simp)
    cases ws with
    | nil => exact hclose hv
    | cons v' ws =>
      have hrest := ih (fun x hx => hws x (by simp [hx])) (by simp)
      rw [join, List.append_assoc]
      · exact .next hv (by decide) hrest
      · simp

/-! ### The parts of an instruction -/

namespace Inst

/-- Where the result goes, if the instruction is written with a destination. -/
def dst? : Inst → Option Reg
  | const dst _ => some dst
  | mov dst _ => some dst
  | binOp _ dst _ _ => some dst
  | load dst _ => some dst
  | call _ _ rtn => rtn
  | _ => none

def keyword : Inst → String
  | const .. => "const"
  | mov .. => "mov"
  | binOp op .. => op.name
  | load .. => "load"
  | store .. => "store"
  | spAdd _ => "sp_add"
  | drop _ => "drop"
  | blackbox _ => "blackbox"
  | call .. => "call"
  | br _ => "br"
  | condbr .. => "condbr"
  | ret _ => "ret"

/-- The words after the keyword. -/
def arguments : Inst → List Text
  | const _ val => [digits val.toNat]
  | mov _ src => [src.text]
  | binOp _ _ lhs rhs => [lhs.text, rhs.text]
  | load _ addr => [addr.text]
  | store addr val => [addr.text, val.text]
  | spAdd off => [signed off.toInt]
  | drop reg => [reg.text]
  | blackbox reg => [reg.text]
  | call target args _ => ('@' :: digits target.toNat) :: args.map Reg.text
  | br target => [labelText target.toNat]
  | condbr cond yes no => [cond.text, labelText yes.toNat, labelText no.toNat]
  | ret val => val.toList.map Reg.text

/-- What is written before the keyword. -/
def lead (i : Inst) : Text :=
  match i.dst? with
  | some dst => dst.text ++ " = ".toList
  | none => []

theorem token_keyword (i : Inst) : Token i.keyword.toList := by
  cases i with
  | binOp op => simpa [keyword, BinOp.name] using token_binOp op
  | _ =>
    rw [keyword]
    decide

theorem token_of_mem_arguments {i : Inst} {w : Text} (h : w ∈ i.arguments) : Token w := by
  have hat (n : Nat) : Token ('@' :: digits n) := (token_digits n).cons (by decide)
  cases i <;> grind [arguments, token_digits, token_signed, token_labelText, token_reg]

/-- Most instructions have a blank after the keyword and commas between the arguments. -/
theorem exists_spells_of_list {i : Inst} (hne : i.arguments ≠ [])
    (htext : i.text = i.lead ++ (i.keyword.toList ++ " ".toList ++ join ", ".toList i.arguments)) :
    ∃ s, i.text = i.lead ++ s ∧ Spells s (i.keyword.toList :: i.arguments) := by
  have hargs : Spells (join ", ".toList i.arguments ++ []) i.arguments :=
    spells_join (fun _ => token_of_mem_arguments) hne fun hw => by simpa using Spells.last hw
  rw [List.append_nil] at hargs
  exact ⟨_, htext, .next i.token_keyword (by decide) hargs⟩

/-- A call has its arguments in parentheses, which are there even if it has none. -/
theorem spells_target (target : UInt32) (args : List Reg) :
    Spells ('@' :: digits target.toNat ++ "(".toList ++ (join ", ".toList (args.map Reg.text) ++ ")".toList))
      (('@' :: digits target.toNat) :: args.map Reg.text) := by
  have htarget : Token ('@' :: digits target.toNat) := (token_digits _).cons (by decide)
  cases args with
  | nil =>
    have hempty : Spells ('@' :: digits target.toNat ++ "()".toList) ['@' :: digits target.toNat] :=
      .close htarget (by decide)
    simpa [join] using hempty
  | cons r args =>
    have hargs : ∀ w ∈ (r :: args).map Reg.text, Token w := by simp [token_reg]
    exact .next htarget (by decide) (spells_join hargs (by simp) fun hw => .close hw (by decide))

/-- What is written after the destination shows the keyword and the arguments. -/
theorem exists_spells (i : Inst) : ∃ s, i.text = i.lead ++ s ∧ Spells s (i.keyword.toList :: i.arguments) := by
  cases i with
  | call target args rtn =>
    have hspells : Spells ("call".toList ++ " ".toList ++ _) _ :=
      .next (by decide) (by decide) (spells_target target args)
    refine ⟨_, ?_, hspells⟩
    -- `delta`, because deriving the equations of `text` would compare all its string literals
    delta text
    cases rtn <;> simp [lead, dst?]
  | ret val =>
    cases val with
    | none => exact ⟨"ret".toList, rfl, .last (by decide)⟩
    | some r =>
      refine exists_spells_of_list (by simp [arguments]) ?_
      delta text
      simp [lead, dst?, keyword, arguments, join]
  | _ =>
    refine exists_spells_of_list (by simp [arguments]) ?_
    delta text
    simp [lead, dst?, keyword, BinOp.name, arguments, join]

theorem tight_lead_append {s : Text} (i : Inst) (hs : Tight s) : Tight (i.lead ++ s) := by
  cases hdst : i.dst? with
  | none => simpa [lead, hdst] using hs
  | some dst => simpa [lead, hdst] using (Tight.of_word (token_reg dst).word).enclose " = ".toList hs

theorem tight_text (i : Inst) : Tight i.text := by
  obtain ⟨s, htext, hspells⟩ := i.exists_spells
  rw [htext]
  exact i.tight_lead_append hspells.tight

/-- An instruction has no character but plain ones, gaps and the sign after a destination. -/
theorem not_mem_text (i : Inst) {c : Char} (hplain : isPlain c = false) (hgap : isGap c = false) (hc : c ≠ '=') :
    c ∉ i.text := by
  obtain ⟨s, htext, hspells⟩ := i.exists_spells
  have hblank : c ≠ ' ' := by
    rintro rfl
    simp [isGap] at hgap
  have hlead : c ∉ i.lead := by
    cases hdst : i.dst? with
    | none => simp [lead, hdst]
    | some dst => simp [lead, hdst, (token_reg dst).not_mem hplain, hblank, hc]
  rw [htext, List.mem_append, not_or]
  exact ⟨hlead, hspells.not_mem hplain hgap⟩

end Inst

/-! ### Reading the parts -/

theorem Reg.ofText?_text (r : Reg) : ofText? r.text = some r := by
  cases r with
  | sp => rfl
  | gp i w =>
    have hdot : '.' ∉ digits i.toNat := fun h => by simpa using isDigit_of_mem_digits h
    have hsplit : splitOnce ['.'] (digits i.toNat ++ '.' :: w.suffix) = some (digits i.toNat, w.suffix) :=
      splitOnce_char w.suffix hdot
    have hwidth : Width.ofSuffix? w.suffix = some w := by cases w <;> decide
    simp [text, ofText?, hsplit, readUInt8_digits, hwidth, Except.toOption]

theorem BinOp.ofText?_text (op : BinOp) : ofText? op.text = some op := by cases op <;> decide

namespace Parser

variable (line : Text)

theorem readReg_text (r : Reg) : readReg line r.text = .ok r := by
  rw [readReg, Reg.ofText?_text]

theorem readRegs_text (rs : List Reg) : readRegs line (rs.map Reg.text) = .ok rs := by
  induction rs with
  | nil => rfl
  | cons r rs ih =>
    rw [readRegs] at ih
    rw [readRegs, List.map_cons, List.mapM_cons, readReg_text, ih]
    rfl

theorem readLabel_text (l : Label) : readLabel line (labelText l.toNat) = .ok l := by
  have hread : readNat 0xffffffffffffffff (digits l.toNat) = .ok l.toNat :=
    readNat_digits (by have := l.toNat_lt; omega)
  have hindex : indexUpTo 0xffffffff l.toNat = .ok l.toNat := if_pos (Nat.le_of_lt_succ l.toNat_lt)
  simp [readLabel, labelText, hread, hindex, Except.map]

theorem readCall_text (target : UInt32) (args : List Reg) (rtn : Option Reg) :
    readCall line rtn ('@' :: digits target.toNat) (args.map Reg.text) = .ok (.call target args rtn) := by
  simp only [readCall, readUInt32_digits, readRegs_text]
  rfl

/-- The parts of an instruction with a destination determine it. -/
theorem readAssign_parts {i : Inst} {dst : Reg} (h : i.dst? = some dst) :
    readAssign line dst i.keyword i.arguments = .ok i := by
  cases i with
  | const d val =>
    obtain rfl : d = dst := by simpa [Inst.dst?] using h
    simp [Inst.keyword, Inst.arguments, readAssign, readUInt64_digits]
  | mov d src =>
    obtain rfl : d = dst := by simpa [Inst.dst?] using h
    simp only [Inst.keyword, Inst.arguments, readAssign, readReg_text]
    rfl
  | load d addr =>
    obtain rfl : d = dst := by simpa [Inst.dst?] using h
    simp only [Inst.keyword, Inst.arguments, readAssign, readReg_text]
    rfl
  | binOp op d lhs rhs =>
    obtain rfl : d = dst := by simpa [Inst.dst?] using h
    -- the row of a call comes first and takes two words too
    have hcall : op.name ≠ "call" := by cases op <;> decide
    have hop : BinOp.ofText? op.name.toList = some op := by simpa [BinOp.name] using op.ofText?_text
    simp only [Inst.keyword, Inst.arguments, readAssign, hop, readReg_text]
    rfl
  | call target args rtn =>
    obtain rfl : rtn = some dst := h
    simp [Inst.keyword, Inst.arguments, readAssign, readCall_text]
  | _ => simp [Inst.dst?] at h

/-- The parts of an instruction without a destination determine it. -/
theorem readEffect_parts {i : Inst} (h : i.dst? = none) : readEffect line i.keyword i.arguments = .ok i := by
  cases i with
  | const | mov | binOp | load => simp [Inst.dst?] at h
  | call target args rtn =>
    obtain rfl : rtn = none := h
    simp [Inst.keyword, Inst.arguments, readEffect, readCall_text]
  | spAdd off => simp [Inst.keyword, Inst.arguments, readEffect, readInt32_signed]
  | ret val =>
    cases val with
    | none => rfl
    | some r =>
      simp only [Inst.keyword, Inst.arguments, readEffect, Option.toList, List.map, readReg_text]
      rfl
  | _ =>
    simp only [Inst.keyword, Inst.arguments, readEffect, readReg_text, readLabel_text]
    rfl

variable {line}

/-- An instruction is read back whatever its tag was. -/
theorem readInst_of_dropTag {i : Inst} (h : dropTag line = .ok i.text) : readInst line = .ok i := by
  obtain ⟨s, htext, hspells⟩ := i.exists_spells
  have hwords : operandWords s = i.keyword.toList :: i.arguments := hspells.operandWords_eq
  cases hdst : i.dst? with
  | some dst =>
    have hsplit : splitOnce " = ".toList i.text = some (dst.text, s) := by
      have hblank : ' ' ∉ dst.text := (token_reg dst).not_mem (by decide)
      simpa [htext, Inst.lead, hdst] using splitOnce_append "= ".toList s hblank
    have hreg : readReg line (trim dst.text) = .ok dst := by
      rw [(Tight.of_word (token_reg dst).word).trim_self, readReg_text]
    simp only [readInst, h, hsplit, hreg, hspells.tight.trim_self, hwords, bind, Except.bind, String.ofList_toList]
    exact readAssign_parts line hdst
  | none =>
    have hbody : i.text = s := by simp [htext, Inst.lead, hdst]
    have hsplit : splitOnce " = ".toList s = none :=
      splitOnce_eq_none (c := '=') (by decide) (hspells.not_mem (by decide) (by decide))
    simp only [readInst, h, hbody, hsplit, hwords, bind, Except.bind, String.ofList_toList]
    exact readEffect_parts line hdst

end Parser

end ChillHints
