import ChillHints.Hint.Container
import Mathlib.Algebra.Group.Nat.Defs
import Mathlib.Data.List.Perm.Subperm

/-!
# A table and its container determine each other

Each reader takes exactly the bytes off the front that writing would put there (`Inverts`): for a single field, for a
counted sequence of whatever a reader can take, and so for entries, hints and the whole body. The checks then accept
the fields of well-formed hints and nothing else (`checkEntries_ok`, `checkHints_ok`).

* `WellFormed.encode_eq`: a well-formed table never has too many entries or hints to be written.
* `decode_iff_encode`: the byte strings that are read and the well-formed tables correspond one to one.
-/

namespace ChillHints

/-! ## Well-formed tables -/

/-- The entry is about a register of the edition. -/
def HintEntry.InEdition (e : Edition) (x : HintEntry) : Prop :=
  match x.cls with
  | .gp => x.idx.toNat < e.numGp
  | .sp => x.idx = 0

/-- Entries come in the order of their classes, and those of one class in the order of their numbers. -/
def HintEntry.Precedes (x y : HintEntry) : Prop := x.cls.code < y.cls.code ∨ x.cls = y.cls ∧ x.idx < y.idx

/-- A hint lists something, in strictly ascending order. -/
structure Hint.WellFormed (e : Edition) (h : Hint) : Prop where
  nonempty : h.entries ≠ []
  ascending : h.entries.Pairwise HintEntry.Precedes
  inEdition : ∀ x ∈ h.entries, x.InEdition e

/-- The hints of a table are about its instructions, in strictly ascending order. -/
structure HintTable.WellFormed (t : HintTable) : Prop where
  insts_lt : t.instsLen < 2 ^ 32
  ascending : t.hints.Pairwise fun a b => a.iidx < b.iidx
  below : ∀ h ∈ t.hints, h.iidx < t.instsLen
  hints : ∀ h ∈ t.hints, h.WellFormed t.edition

theorem HintEntry.precedes_iff (x y : HintEntry) : x.Precedes y ↔ x.key < y.key := by
  obtain ⟨cx, ix, _⟩ := x
  obtain ⟨cy, iy, _⟩ := y
  have hx := ix.toNat_lt
  have hy := iy.toNat_lt
  cases cx <;> cases cy <;> simp [Precedes, key, RegClass.code, UInt8.lt_iff_toNat_lt] <;> omega

theorem HintEntry.pairwise_precedes {xs : List HintEntry} : xs.Pairwise Precedes ↔ xs.Pairwise (key · < key ·) :=
  List.Pairwise.iff precedes_iff

namespace Container

theorem inBounds_iff (e : Edition) (x : HintEntry) : inBounds e x.cls x.idx = true ↔ x.InEdition e := by
  obtain ⟨c, i, _⟩ := x
  cases c <;> simp [inBounds, HintEntry.InEdition]

/-! ## Readers and writers -/

/-- `read` takes off the front of the bytes what `write` makes of something that is `ok`, and nothing else. -/
def Inverts {α : Type} (read : Reader α) (write : α → List UInt8) (ok : α → Prop) : Prop :=
  ∀ bytes x rest, read bytes = .ok (x, rest) ↔ ok x ∧ bytes = write x ++ rest

theorem inverts_readByte : Inverts readByte (fun b => [b]) fun _ => True := by
  intro bytes x rest
  cases bytes with
  | nil => simp [readByte]
  | cons b bytes => simp [readByte]

/-- Four bytes are the word of the number that they make up. -/
theorem word_bytes (a b c d : UInt8) :
    word (a.toNat + b.toNat * 0x100 + c.toNat * 0x10000 + d.toNat * 0x1000000) = [a, b, c, d] := by
  have ha := a.toNat_lt
  have hb := b.toNat_lt
  have hc := c.toNat_lt
  have hd := d.toNat_lt
  simp only [word, List.cons.injEq, ← UInt8.toNat_inj, UInt8.toNat_ofNat', and_true]
  refine ⟨?_, ?_, ?_, ?_⟩ <;> omega

/-- The bytes of a word make up its number. -/
theorem readWord_word {n : Nat} (hn : n < 2 ^ 32) (rest : List UInt8) : readWord (word n ++ rest) = .ok (n, rest) := by
  simp only [word, List.cons_append, List.nil_append, readWord, UInt8.toNat_ofNat', Except.ok.injEq, Prod.mk.injEq,
    and_true]
  omega

theorem inverts_readWord : Inverts readWord word (· < 2 ^ 32) := by
  intro bytes n rest
  constructor
  · intro h
    match bytes, h with
    | a :: b :: c :: d :: bytes, h =>
      simp only [readWord, Except.ok.injEq, Prod.mk.injEq] at h
      obtain ⟨rfl, rfl⟩ := h
      have ha := a.toNat_lt
      have hb := b.toNat_lt
      have hc := c.toNat_lt
      have hd := d.toNat_lt
      refine ⟨by omega, ?_⟩
      rw [word_bytes]
      rfl
  · rintro ⟨hn, rfl⟩
    exact readWord_word hn rest

/-- A counted sequence. -/
theorem Inverts.readMany {α : Type} {read : Reader α} {write : α → List UInt8} {ok : α → Prop}
    (h : Inverts read write ok) (n : Nat) :
    Inverts (readMany read n) (·.flatMap write) fun xs => xs.length = n ∧ ∀ x ∈ xs, ok x := by
  intro bytes xs rest
  induction n generalizing bytes xs with
  | zero =>
    simp only [Container.readMany, Except.ok.injEq, Prod.mk.injEq, List.length_eq_zero_iff]
    constructor
    · rintro ⟨rfl, rfl⟩
      simp
    · rintro ⟨⟨rfl, -⟩, rfl⟩
      simp
  | succ n ih =>
    simp only [Container.readMany, bind_eq_ok, Prod.exists, pure, Except.pure, Except.ok.injEq, Prod.mk.injEq]
    constructor
    · rintro ⟨x, bytes', hx, xs', rest', hxs, rfl, rfl⟩
      obtain ⟨hok, rfl⟩ := (h _ _ _).1 hx
      obtain ⟨⟨hlen, hall⟩, rfl⟩ := (ih _ _).1 hxs
      simpa [hlen, hok] using hall
    · rintro ⟨⟨hlen, hall⟩, rfl⟩
      obtain ⟨x, xs, rfl⟩ := List.exists_cons_of_length_eq_add_one hlen
      refine ⟨x, xs.flatMap write ++ rest, (h _ _ _).2 ⟨hall x (by simp), by simp⟩, xs, rest, ?_, rfl, rfl⟩
      exact (ih _ _).2 ⟨⟨by simpa using hlen, fun y hy => hall y (by simp [hy])⟩, rfl⟩

/-! ## Entries, hints and the body -/

/-- The bytes of the fields of an entry. -/
def RawEntry.bytes (r : RawEntry) : List UInt8 := r.cls :: r.idx :: word r.nextUse

/-- The bytes of the fields of a hint. -/
def RawHint.bytes (r : RawHint) : List UInt8 :=
  word r.iidx ++ UInt8.ofNat r.entries.length :: r.entries.flatMap RawEntry.bytes

/-- The numbers of an entry fit into its fields. -/
def RawEntry.Fits (r : RawEntry) : Prop := r.nextUse < 2 ^ 32

/-- The numbers of a hint fit into its fields. -/
structure RawHint.Fits (r : RawHint) : Prop where
  iidx_lt : r.iidx < 2 ^ 32
  length_lt : r.entries.length < 256
  entries : ∀ x ∈ r.entries, x.Fits

theorem inverts_readEntry : Inverts readEntry RawEntry.bytes RawEntry.Fits := by
  intro bytes x rest
  simp only [readEntry, bind_eq_ok, Prod.exists, pure, Except.pure, Except.ok.injEq, Prod.mk.injEq]
  constructor
  · rintro ⟨cls, bytes₁, h₁, idx, bytes₂, h₂, n, bytes₃, h₃, rfl, rfl⟩
    obtain ⟨-, rfl⟩ := (inverts_readByte _ _ _).1 h₁
    obtain ⟨-, rfl⟩ := (inverts_readByte _ _ _).1 h₂
    obtain ⟨hn, rfl⟩ := (inverts_readWord _ _ _).1 h₃
    exact ⟨hn, rfl⟩
  · rintro ⟨hn, rfl⟩
    exact ⟨x.cls, x.idx :: word x.nextUse ++ rest, rfl, x.idx, word x.nextUse ++ rest, rfl, x.nextUse, rest,
      readWord_word hn rest, rfl, rfl⟩

theorem inverts_readHint : Inverts readHint RawHint.bytes RawHint.Fits := by
  intro bytes x rest
  simp only [readHint, bind_eq_ok, Prod.exists, pure, Except.pure, Except.ok.injEq, Prod.mk.injEq]
  constructor
  · rintro ⟨iidx, bytes₁, h₁, count, bytes₂, h₂, entries, bytes₃, h₃, rfl, rfl⟩
    obtain ⟨hi, rfl⟩ := (inverts_readWord _ _ _).1 h₁
    obtain ⟨-, rfl⟩ := (inverts_readByte _ _ _).1 h₂
    obtain ⟨⟨hlen, hall⟩, rfl⟩ := (inverts_readEntry.readMany _ _ _ _).1 h₃
    refine ⟨⟨hi, by simpa only [hlen] using count.toNat_lt, hall⟩, ?_⟩
    simp [RawHint.bytes, hlen]
  · rintro ⟨⟨hi, hlen, hall⟩, rfl⟩
    have hcount : (UInt8.ofNat x.entries.length).toNat = x.entries.length := by
      rw [UInt8.toNat_ofNat', Nat.mod_eq_of_lt hlen]
    refine ⟨x.iidx, UInt8.ofNat x.entries.length :: (x.entries.flatMap RawEntry.bytes ++ rest), ?_,
      UInt8.ofNat x.entries.length, x.entries.flatMap RawEntry.bytes ++ rest, rfl, x.entries, rest, ?_, rfl, rfl⟩
    · rw [RawHint.bytes, List.append_assoc, List.cons_append]
      exact readWord_word hi _
    · exact (inverts_readEntry.readMany _ _ _ _).2 ⟨⟨hcount.symm, hall⟩, rfl⟩

/-- The body takes up all bytes. -/
theorem readBody_ok {bytes : List UInt8} {n : Nat} {hs : List RawHint} :
    readBody bytes = .ok (n, hs) ↔ (n < 2 ^ 32 ∧ hs.length < 2 ^ 32 ∧ ∀ h ∈ hs, h.Fits) ∧
      bytes = word n ++ word hs.length ++ hs.flatMap RawHint.bytes := by
  simp only [readBody, bind_eq_ok, Prod.exists]
  constructor
  · rintro ⟨n', bytes₁, h₁, count, bytes₂, h₂, hs', bytes₃, h₃, h⟩
    obtain ⟨hn, rfl⟩ := (inverts_readWord _ _ _).1 h₁
    obtain ⟨hcount, rfl⟩ := (inverts_readWord _ _ _).1 h₂
    obtain ⟨⟨rfl, hall⟩, rfl⟩ := (inverts_readHint.readMany _ _ _ _).1 h₃
    split at h
    · rename_i hempty
      obtain ⟨rfl, rfl⟩ := Prod.mk.injEq _ _ _ _ ▸ Except.ok.inj h
      refine ⟨⟨hn, hcount, hall⟩, ?_⟩
      simp [List.isEmpty_iff.1 hempty]
    · cases h
  · rintro ⟨⟨hn, hcount, hall⟩, rfl⟩
    refine ⟨n, word hs.length ++ hs.flatMap RawHint.bytes, ?_, hs.length, hs.flatMap RawHint.bytes,
      readWord_word hcount _, hs, [], ?_, rfl⟩
    · rw [List.append_assoc]
      exact readWord_word hn _
    · exact (inverts_readHint.readMany _ _ _ _).2 ⟨⟨rfl, hall⟩, by simp⟩

/-! ## The checks -/

/-- From `least` on, and each further one above the one before. -/
def AscendsFrom {α : Type} (f : α → Nat) : Nat → List α → Prop
  | _, [] => True
  | least, x :: xs => least ≤ f x ∧ AscendsFrom f (f x + 1) xs

theorem ascendsFrom_iff {α : Type} {f : α → Nat} {least : Nat} {xs : List α} :
    AscendsFrom f least xs ↔ (∀ x ∈ xs, least ≤ f x) ∧ xs.Pairwise (f · < f ·) := by
  induction xs generalizing least with
  | nil => simp [AscendsFrom]
  | cons x xs ih =>
    simp only [AscendsFrom, ih, List.mem_cons, forall_eq_or_imp, List.pairwise_cons]
    constructor
    · rintro ⟨hx, hxs, hpair⟩
      exact ⟨⟨hx, fun y hy => Nat.le_trans hx (Nat.le_of_succ_le (hxs y hy))⟩, hxs, hpair⟩
    · rintro ⟨⟨hx, -⟩, hxs, hpair⟩
      exact ⟨hx, hxs, hpair⟩

/-- Ascending numbers are different ones. -/
theorem nodup_map_of_pairwise_lt {α : Type} {f : α → Nat} {xs : List α} (hpair : xs.Pairwise (f · < f ·)) :
    (xs.map f).Nodup := by
  rw [List.nodup_iff_pairwise_ne, List.pairwise_map]
  exact hpair.imp Nat.ne_of_lt

/-- Things with ascending numbers out of `ns` are no more than `ns`. -/
theorem length_le_of_pairwise_lt {α : Type} {f : α → Nat} {xs : List α} {ns : List Nat}
    (hpair : xs.Pairwise (f · < f ·)) (hmem : ∀ x ∈ xs, f x ∈ ns) : xs.length ≤ ns.length := by
  have hsub : xs.map f ⊆ ns := by
    intro n hn
    obtain ⟨x, hx, rfl⟩ := List.mem_map.1 hn
    exact hmem x hx
  simpa using ((nodup_map_of_pairwise_lt hpair).subperm hsub).length_le

end Container

/-! ## What the fields say -/

theorem RegClass.ofCode?_eq_some {n : UInt8} {c : RegClass} : ofCode? n = some c ↔ n = c.code := by
  cases c <;> simp only [ofCode?, code] <;> split <;> simp_all

theorem NextUse.raw_lt (x : NextUse) : x.raw < 2 ^ 32 := by
  cases x with
  | after d => exact Nat.lt_succ_of_le d.le_max
  | never => decide

theorem NextUse.ofRaw_raw (x : NextUse) : ofRaw x.raw = x := by
  cases x with
  | after d => simp [ofRaw, raw, after?, d.pos, d.le_max]
  | never => simp [ofRaw, raw, after?]

theorem NextUse.raw_ofRaw {n : Nat} (hn : n < 2 ^ 32) : (ofRaw n).raw = n := by
  by_cases hpos : 0 < n
  · have hmax : n ≤ maxDistance := Nat.le_of_lt_succ hn
    simp [ofRaw, after?, hpos, hmax, raw]
  · simp [ofRaw, after?, raw, Nat.eq_zero_of_not_pos hpos]

theorem Edition.ofNumber_eq_ok {n : Nat} {e : Edition} : ofNumber n = .ok e ↔ n = e.number := by
  cases e
  cases n <;> simp [ofNumber, ofNumber?, number]

/-- The fields of an entry. -/
def HintEntry.fields (x : HintEntry) : Container.RawEntry := ⟨x.cls.code, x.idx, x.nextUse.raw⟩

/-- The fields of a hint. -/
def Hint.fields (h : Hint) : Container.RawHint := ⟨h.iidx, h.entries.map HintEntry.fields⟩

namespace Container

/-- The entry that the fields `r` of class `c` describe is the only one with these fields. -/
theorem eq_fields_iff {r : RawEntry} (hr : r.Fits) {x : HintEntry} :
    r = x.fields ↔ ∃ c, RegClass.ofCode? r.cls = some c ∧ x = ⟨c, r.idx, NextUse.ofRaw r.nextUse⟩ := by
  constructor
  · rintro rfl
    exact ⟨x.cls, RegClass.ofCode?_eq_some.2 rfl, by simp only [HintEntry.fields, NextUse.ofRaw_raw]⟩
  · rintro ⟨c, hc, rfl⟩
    simp only [HintEntry.fields, NextUse.raw_ofRaw hr, ← RegClass.ofCode?_eq_some.1 hc]

/-- What the check does with one entry. -/
theorem checkEntries_cons {e : Edition} {iidx least : Nat} {r : RawEntry} {raws : List RawEntry} {xs : List HintEntry}
    (hr : r.Fits) :
    checkEntries e iidx least (r :: raws) = .ok xs ↔ ∃ x xs', r = x.fields ∧ x.InEdition e ∧ least ≤ x.key ∧
      checkEntries e iidx (x.key + 1) raws = .ok xs' ∧ xs = x :: xs' := by
  rw [checkEntries]
  constructor
  · intro h
    split at h
    · cases h
    · rename_i c hc
      split at h
      · cases h
      · rename_i hin
        simp only at h
        split at h
        · cases h
        · rename_i hleast
          obtain ⟨xs', hxs', h⟩ := bind_eq_ok.1 h
          cases h
          refine ⟨_, xs', (eq_fields_iff hr).2 ⟨c, hc, rfl⟩, ?_, Nat.le_of_not_lt hleast, hxs', rfl⟩
          exact (inBounds_iff e _).1 (by simpa using hin)
  · rintro ⟨x, xs', hx, hin, hleast, hrest, rfl⟩
    obtain ⟨c, hc, rfl⟩ := (eq_fields_iff hr).1 hx
    have hbounds := (inBounds_iff e _).2 hin
    simp only [hc, hbounds, Nat.not_lt.2 hleast, hrest]
    rfl

/-- The check accepts the fields of ascending entries of the edition, and gives these entries. -/
theorem checkEntries_ok {e : Edition} {iidx least : Nat} {raws : List RawEntry} {xs : List HintEntry}
    (hfit : ∀ r ∈ raws, r.Fits) :
    checkEntries e iidx least raws = .ok xs ↔
      raws = xs.map HintEntry.fields ∧ AscendsFrom HintEntry.key least xs ∧ ∀ x ∈ xs, x.InEdition e := by
  induction raws generalizing least xs with
  | nil => cases xs <;> simp [checkEntries, AscendsFrom]
  | cons r raws ih =>
    have ih (l : Nat) (ys : List HintEntry) := @ih l ys fun r hr => hfit r (by simp [hr])
    rw [checkEntries_cons (hfit r (by simp))]
    constructor
    · rintro ⟨x, xs, rfl, hin, hleast, hrest, rfl⟩
      obtain ⟨rfl, hasc, hall⟩ := (ih _ _).1 hrest
      exact ⟨rfl, ⟨hleast, hasc⟩, List.forall_mem_cons.2 ⟨hin, hall⟩⟩
    · rintro ⟨heq, hasc, hall⟩
      cases xs with
      | nil => cases heq
      | cons x xs =>
        obtain ⟨rfl, rfl⟩ := List.cons.inj heq
        obtain ⟨hin, hall⟩ := List.forall_mem_cons.1 hall
        exact ⟨x, xs, rfl, hin, hasc.1, (ih _ _).2 ⟨rfl, hasc.2, hall⟩, rfl⟩

/-- The entries of a well-formed hint are those that the check accepts. -/
theorem checkEntries_zero_ok {e : Edition} {r : RawHint} {h : Hint} (hr : r.Fits) :
    (r.iidx = h.iidx ∧ checkEntries e r.iidx 0 r.entries = .ok h.entries ∧ h.entries.isEmpty = false) ↔
      r = h.fields ∧ h.WellFormed e := by
  rw [checkEntries_ok hr.entries, ascendsFrom_iff, ← HintEntry.pairwise_precedes, List.isEmpty_eq_false_iff]
  constructor
  · rintro ⟨hi, ⟨hraws, ⟨-, hasc⟩, hin⟩, hne⟩
    refine ⟨?_, hne, hasc, hin⟩
    rw [Hint.fields, ← hi, ← hraws]
  · rintro ⟨rfl, hne, hasc, hin⟩
    exact ⟨rfl, ⟨rfl, ⟨fun _ _ => Nat.zero_le _, hasc⟩, hin⟩, hne⟩

/-- What the check does with one hint. -/
theorem checkHints_cons {e : Edition} {n least : Nat} {r : RawHint} {raws : List RawHint} {hs : List Hint}
    (hr : r.Fits) :
    checkHints e n least (r :: raws) = .ok hs ↔ ∃ h hs', (r = h.fields ∧ h.WellFormed e) ∧ h.iidx < n ∧
      least ≤ h.iidx ∧ checkHints e n (h.iidx + 1) raws = .ok hs' ∧ hs = h :: hs' := by
  rw [checkHints]
  constructor
  · intro h
    split at h
    · cases h
    · rename_i hn
      split at h
      · cases h
      · rename_i hleast
        obtain ⟨xs, hxs, h⟩ := bind_eq_ok.1 h
        split at h
        · cases h
        · rename_i hempty
          obtain ⟨hs', hhs', h⟩ := bind_eq_ok.1 h
          cases h
          have hhint := (checkEntries_zero_ok (h := ⟨r.iidx, xs⟩) hr).1 ⟨rfl, hxs, by simpa using hempty⟩
          exact ⟨_, hs', hhint, Nat.lt_of_not_le hn, Nat.le_of_not_lt hleast, hhs', rfl⟩
  · rintro ⟨⟨i, xs⟩, hs', hhint, hn, hleast, hrest, rfl⟩
    obtain ⟨rfl, hentries, hempty⟩ := (checkEntries_zero_ok hr).2 hhint
    simp only [Nat.not_le.2 hn, Nat.not_lt.2 hleast, if_false, bind_eq_ok]
    refine ⟨xs, hentries, ?_⟩
    rw [hempty]
    exact bind_eq_ok.2 ⟨hs', hrest, rfl⟩

/-- The check accepts the fields of ascending, well-formed hints about the instructions, and gives these hints. -/
theorem checkHints_ok {e : Edition} {n least : Nat} {raws : List RawHint} {hs : List Hint}
    (hfit : ∀ r ∈ raws, r.Fits) :
    checkHints e n least raws = .ok hs ↔ raws = hs.map Hint.fields ∧ AscendsFrom Hint.iidx least hs ∧
      (∀ h ∈ hs, h.iidx < n) ∧ ∀ h ∈ hs, h.WellFormed e := by
  induction raws generalizing least hs with
  | nil => cases hs <;> simp [checkHints, AscendsFrom]
  | cons r raws ih =>
    have ih (l : Nat) (gs : List Hint) := @ih l gs fun r hr => hfit r (by simp [hr])
    rw [checkHints_cons (hfit r (by simp))]
    constructor
    · rintro ⟨h, hs, ⟨rfl, hwf⟩, hn, hleast, hrest, rfl⟩
      obtain ⟨rfl, hasc, hbelow, hall⟩ := (ih _ _).1 hrest
      exact ⟨rfl, ⟨hleast, hasc⟩, List.forall_mem_cons.2 ⟨hn, hbelow⟩, List.forall_mem_cons.2 ⟨hwf, hall⟩⟩
    · rintro ⟨heq, hasc, hbelow, hall⟩
      cases hs with
      | nil => cases heq
      | cons h hs =>
        obtain ⟨rfl, rfl⟩ := List.cons.inj heq
        obtain ⟨hn, hbelow⟩ := List.forall_mem_cons.1 hbelow
        obtain ⟨hwf, hall⟩ := List.forall_mem_cons.1 hall
        exact ⟨h, hs, ⟨rfl, hwf⟩, hn, hasc.1, (ih _ _).2 ⟨rfl, hasc.2, hbelow, hall⟩, rfl⟩

end Container

/-! ## Well-formed tables can be written -/

/-- There are fifteen general purpose numbers, and the stack pointer. -/
theorem Hint.WellFormed.length_le {e : Edition} {h : Hint} (hwf : h.WellFormed e) : h.entries.length ≤ 16 := by
  have hkeys : ∀ x ∈ h.entries, x.key ∈ 256 :: List.range 15 := by
    intro x hx
    have hin := hwf.inEdition x hx
    obtain ⟨c, i, _⟩ := x
    cases e
    cases c with
    | gp => simpa [HintEntry.InEdition, HintEntry.key, RegClass.code, Edition.numGp] using Or.inr hin
    | sp => simp_all [HintEntry.InEdition, HintEntry.key, RegClass.code]
  exact Container.length_le_of_pairwise_lt (HintEntry.pairwise_precedes.1 hwf.ascending) hkeys

theorem Hint.WellFormed.fits {e : Edition} {h : Hint} (hwf : h.WellFormed e) (hi : h.iidx < 2 ^ 32) :
    h.fields.Fits := by
  refine ⟨hi, ?_, ?_⟩
  · have := hwf.length_le
    simp only [Hint.fields, List.length_map]
    omega
  · intro r hr
    obtain ⟨x, -, rfl⟩ := List.mem_map.1 hr
    exact x.nextUse.raw_lt

theorem HintTable.WellFormed.numHints_le {t : HintTable} (hwf : t.WellFormed) : t.numHints ≤ t.instsLen := by
  have hmem : ∀ h ∈ t.hints, h.iidx ∈ List.range t.instsLen := fun h hh => List.mem_range.2 (hwf.below h hh)
  simpa [HintTable.numHints] using Container.length_le_of_pairwise_lt hwf.ascending hmem

namespace HintTable

/-- The bytes of a table. -/
def bytes (t : HintTable) : List UInt8 :=
  Container.word Container.magic ++ Container.word t.edition.number ++ Container.word t.instsLen
    ++ Container.word t.numHints ++ t.hints.flatMap encodeHint

theorem encodeHint_eq (h : Hint) : encodeHint h = h.fields.bytes := by
  simp only [encodeHint, Container.RawHint.bytes, Hint.fields, List.length_map, List.flatMap_map]
  rfl

/-- **A well-formed table is written.** -/
theorem WellFormed.encode_eq {t : HintTable} (hwf : t.WellFormed) : t.encode = .ok t.bytes := by
  have hfind : t.hints.find? (fun h => decide (0xff < h.entries.length)) = none := by
    rw [List.find?_eq_none]
    intro h hh
    have := (hwf.hints h hh).length_le
    simp only [decide_eq_true_eq]
    omega
  have hinsts := hwf.insts_lt
  have hhints := hwf.numHints_le
  simp only [encode, hfind]
  rw [if_neg (by omega), if_neg (by omega)]
  rfl

/-- The header comes first and is checked first. -/
theorem decode_header {b : List UInt8} {t : HintTable} :
    decode b .e0 = .ok t ↔ ∃ body raws, b = Container.word Container.magic ++ (Container.word 0 ++ body) ∧
      Container.readBody body = .ok (t.instsLen, raws) ∧
        Container.checkHints t.edition t.instsLen 0 raws = .ok t.hints := by
  simp only [decode, bind_eq_ok, mapError_ok_iff, Prod.exists]
  constructor
  · rintro ⟨magic, b₁, h₁, number, body, h₂, h⟩
    obtain ⟨-, rfl⟩ := (Container.inverts_readWord _ _ _).1 h₁
    obtain ⟨-, rfl⟩ := (Container.inverts_readWord _ _ _).1 h₂
    split at h
    · cases h
    · rename_i hmagic
      simp only [bind_eq_ok, mapError_ok_iff, Prod.exists] at h
      obtain ⟨e, he, -, -, n, raws, hbody, hints, hhints, h⟩ := h
      cases h
      cases Edition.ofNumber_eq_ok.1 he
      exact ⟨body, raws, by rw [not_not.1 hmagic]; rfl, hbody, hhints⟩
  · rintro ⟨body, raws, rfl, hbody, hhints⟩
    refine ⟨Container.magic, Container.word 0 ++ body, Container.readWord_word (by decide) _, 0, body,
      Container.readWord_word (by decide) _, ?_⟩
    simp only [ne_eq, not_true_eq_false, if_false, bind_eq_ok, mapError_ok_iff, Prod.exists]
    exact ⟨.e0, rfl, (), rfl, t.instsLen, raws, hbody, t.hints, hhints, rfl⟩

/-- **Exactly the bytes of well-formed tables are read.** -/
theorem decode_eq_ok {b : List UInt8} {t : HintTable} : decode b .e0 = .ok t ↔ t.WellFormed ∧ b = t.bytes := by
  rw [decode_header]
  have hbytes (hs : List Hint) : (hs.map Hint.fields).flatMap Container.RawHint.bytes = hs.flatMap encodeHint := by
    rw [List.flatMap_map]
    exact List.flatMap_congr fun h _ => (encodeHint_eq h).symm
  constructor
  · rintro ⟨body, raws, rfl, hbody, hhints⟩
    obtain ⟨⟨hinsts, hlen, hfit⟩, rfl⟩ := Container.readBody_ok.1 hbody
    obtain ⟨rfl, hasc, hbelow, hwf⟩ := (Container.checkHints_ok hfit).1 hhints
    refine ⟨⟨hinsts, (Container.ascendsFrom_iff.1 hasc).2, hbelow, hwf⟩, ?_⟩
    rw [hbytes, List.length_map]
    simp only [bytes, List.append_assoc]
    rfl
  · rintro ⟨hwf, rfl⟩
    have hfit : ∀ r ∈ t.hints.map Hint.fields, r.Fits := by
      intro r hr
      obtain ⟨h, hh, rfl⟩ := List.mem_map.1 hr
      exact (hwf.hints h hh).fits (Nat.lt_trans (hwf.below h hh) hwf.insts_lt)
    refine ⟨Container.word t.instsLen ++ Container.word t.numHints ++ t.hints.flatMap encodeHint,
      t.hints.map Hint.fields, ?_, ?_, ?_⟩
    · simp only [bytes, List.append_assoc]
      rfl
    · refine Container.readBody_ok.2 ⟨⟨hwf.insts_lt, ?_, hfit⟩, by rw [hbytes, List.length_map]; rfl⟩
      rw [List.length_map]
      exact Nat.lt_of_le_of_lt hwf.numHints_le hwf.insts_lt
    · exact (Container.checkHints_ok hfit).2
        ⟨rfl, Container.ascendsFrom_iff.2 ⟨fun _ _ => Nat.zero_le _, hwf.ascending⟩, hwf.below, hwf.hints⟩

/-- **Reading and writing are inverse.** The bytes that are read as a table are those that a well-formed table is
written as; so every well-formed table is written and read back, whatever is read is written back as it was, and no
two byte strings are read as the same table. -/
theorem decode_iff_encode :
    (∀ b t, decode b .e0 = .ok t ↔ t.WellFormed ∧ t.encode = .ok b) ∧
    (∀ t : HintTable, t.WellFormed → ∃ b, t.encode = .ok b ∧ decode b .e0 = .ok t) ∧
    (∀ b t, decode b .e0 = .ok t → t.encode = .ok b) ∧
    ∀ b b' t, decode b .e0 = .ok t → decode b' .e0 = .ok t → b = b' := by
  have hiff (b : List UInt8) (t : HintTable) : decode b .e0 = .ok t ↔ t.WellFormed ∧ t.encode = .ok b := by
    rw [decode_eq_ok]
    refine and_congr_right fun hwf => ?_
    rw [hwf.encode_eq, Except.ok.injEq, eq_comm]
  refine ⟨hiff, ?_, fun b t h => ((hiff b t).1 h).2, ?_⟩
  · intro t hwf
    exact ⟨t.bytes, hwf.encode_eq, decode_eq_ok.2 ⟨hwf, rfl⟩⟩
  · intro b b' t h h'
    rw [(decode_eq_ok.1 h).2, (decode_eq_ok.1 h').2]

end HintTable

end ChillHints
