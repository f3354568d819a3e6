import ChillHints.Proofs.Emission

/-!
# The frame of a container

A table comes from the next uses of a valid unit or from a container (`Made`). Either way it is well formed, so a look-up
in it finds just the hint that is there, and it is always written, in a number of bytes that only depends on how many
hints and entries there are (`made_represents`).

The bytes of a container are those of its fields, one after the other (`layout`). `Cuts tell k fs` says that `k`, given
the bytes of the fields `fs` up to somewhere inside one of them, reports that this field is cut off.

- A single field: `cuts_readByte`, `cuts_readWord`.
- Reading one thing and then another: `Cuts.bind`, and from it a counted sequence: `Inverts.cuts_readMany`.
- The whole container: `WellFormed.cuts_decode`. Nothing the fields say is looked at before all of them are there.

With further bytes behind a container, these are counted and reported (`WellFormed.decode_append`).
-/

namespace ChillHints

/-! ## Tables that are made -/

namespace HintTable

variable {t : HintTable}

/-- The table was chosen for a valid unit, whose instructions can be counted with 32 bits, or was read from bytes. -/
inductive Made : HintTable → Prop
  | emit {u : CompiledUnit} {rows : NextUseTable} (minDist : Nat) : u.validate = .ok () → u.analyse = .ok rows →
      u.insts.length < 2 ^ 32 → Made (rows.emit minDist)
  | decode {bytes : List UInt8} {e : Edition} {t : HintTable} : decode bytes e = .ok t → Made t

/-- **A table that is made is well formed.** -/
theorem Made.wellFormed (ht : t.Made) : t.WellFormed := by
  cases ht with
  | emit d hv hrows hlen =>
    obtain ⟨rows', -, hrows', hlen'⟩ := CompiledUnit.exists_scan hv
    cases hrows.symm.trans hrows'
    exact NextUseTable.wellFormed_emit (by omega) d
  | @decode bytes e t h =>
    cases e
    exact (decode_eq_ok.mp h).1

/-- What is asserted where a table is put together: hints that stand next to each other ascend, and all hints are about
instructions that exist. -/
def assertions (t : HintTable) : Bool :=
  (t.hints.zip t.hints.tail).all (fun (a, b) => a.iidx < b.iidx) && t.hints.all (fun h => h.iidx < t.instsLen)

theorem all_zip_tail {hints : List Hint} (hasc : hints.Pairwise fun a b => a.iidx < b.iidx) :
    (hints.zip hints.tail).all (fun (a, b) => a.iidx < b.iidx) = true := by
  induction hints with
  | nil => rfl
  | cons a hints ih =>
    obtain ⟨ha, hasc⟩ := List.pairwise_cons.mp hasc
    cases hints with
    | nil => rfl
    | cons b hints =>
      simp only [List.tail_cons, List.zip_cons_cons, List.all_cons, Bool.and_eq_true, decide_eq_true_eq]
      exact ⟨ha b List.mem_cons_self, ih hasc⟩

theorem WellFormed.assertions_hold (ht : t.WellFormed) : t.assertions = true := by
  simp only [assertions, all_zip_tail ht.ascending, Bool.true_and, List.all_eq_true, decide_eq_true_eq]
  exact ht.below

theorem length_encodeHint (h : Hint) : (encodeHint h).length = 5 + 6 * h.entries.length := by
  have hentries : (h.entries.flatMap encodeEntry).length = 6 * h.entries.length := by
    induction h.entries with
    | nil => rfl
    | cons x xs ih =>
      simp only [List.flatMap_cons, List.length_append, List.length_cons, ih, encodeEntry, Container.word,
        List.length_nil]
      omega
  simp only [encodeHint, List.length_append, List.length_cons, hentries, Container.word, List.length_nil]
  omega

/-- The size of a container. -/
theorem length_bytes (t : HintTable) : t.bytes.length = 16 + 5 * t.numHints + 6 * t.numEntries := by
  have hhints : (t.hints.flatMap encodeHint).length = 5 * t.numHints + 6 * t.numEntries := by
    rw [numHints, numEntries]
    induction t.hints with
    | nil => rfl
    | cons h hs ih =>
      simp only [List.flatMap_cons, List.length_append, List.length_cons, ih, length_encodeHint]
      omega
  simp only [bytes, List.length_append, hhints, Container.word, List.length_cons, List.length_nil]
  omega

/-- **What holds of every table that is made.** Its hints are about its instructions, in ascending order; each lists at
most sixteen registers of the edition, in ascending order, and at least one. So what is asserted of it holds, the search
finds the hint of an instruction and nothing else, and it is written, in a number of bytes that is known before. -/
theorem made_represents (ht : t.Made) :
    t.WellFormed ∧ (∀ h ∈ t.hints, h.entries.length ≤ 16) ∧ t.assertions = true ∧
    (∀ i h, t.hint? i = some h ↔ h ∈ t.hints ∧ h.iidx = i) ∧
    ∃ b, t.encode = .ok b ∧ b.length = 16 + 5 * t.numHints + 6 * t.numEntries := by
  have hwf := ht.wellFormed
  exact ⟨hwf, fun h hh => (hwf.hints h hh).length_le, hwf.assertions_hold, fun i h => hint?_eq_some_iff hwf.ascending,
    t.bytes, hwf.encode_eq, t.length_bytes⟩

/-- A table with an entry for the highest register, one for the stack pointer, and an instruction without a hint. -/
def twoHints : HintTable where
  edition := .e0
  instsLen := 3
  hints := [⟨0, [⟨.gp, 0, .next⟩, ⟨.gp, 14, .never⟩]⟩, ⟨2, [⟨.sp, 0, .never⟩]⟩]

/-- A unit that writes two registers and then reads them. -/
def twoValues : CompiledUnit where
  name := "two"
  edition := .e0
  blocks := [[.const (.gp 0 .w64) 1, .const (.gp 1 .w64) 2, .blackbox (.gp 0 .w64), .blackbox (.gp 1 .w64)]]
  blocks_ne_nil := by decide

/-- What holds of `twoHints`, which is read from its container, and of the table that is chosen for `twoValues`, which has
a hint for each of the four instructions. -/
theorem twoHints_represents : (twoHints.Made ∧
    twoHints.WellFormed ∧ (∀ h ∈ twoHints.hints, h.entries.length ≤ 16) ∧ twoHints.assertions = true ∧
    (∀ i h, twoHints.hint? i = some h ↔ h ∈ twoHints.hints ∧ h.iidx = i) ∧
    ∃ b, twoHints.encode = .ok b ∧ b.length = 44) ∧
    ∃ rows, twoValues.analyse = .ok rows ∧ (rows.emit 2).Made ∧ (rows.emit 2).numHints = 4 ∧
      (rows.emit 2).numEntries = 5 ∧ (rows.emit 2).WellFormed ∧ (∀ h ∈ (rows.emit 2).hints, h.entries.length ≤ 16) ∧
      (rows.emit 2).assertions = true ∧
      (∀ i h, (rows.emit 2).hint? i = some h ↔ h ∈ (rows.emit 2).hints ∧ h.iidx = i) ∧
      ∃ b, (rows.emit 2).encode = .ok b ∧ b.length = 66 := by
  have hread : decode twoHints.bytes .e0 = .ok twoHints := by decide +kernel
  have hv : twoValues.validate = .ok () := by decide +kernel
  obtain ⟨rows, -, hrows, -⟩ := CompiledUnit.exists_scan hv
  have hcounts : (twoValues.analyse.toOption.map fun t => ((t.emit 2).numHints, (t.emit 2).numEntries)) =
      some (4, 5) := by decide +kernel
  rw [hrows] at hcounts
  obtain ⟨hhints, hentries⟩ := Prod.mk.inj (Option.some.inj hcounts)
  have hdecoded := Made.decode hread
  have hemitted := Made.emit 2 hv hrows (by decide)
  have hrep := made_represents hemitted
  rw [hhints, hentries] at hrep
  exact ⟨⟨hdecoded, made_represents hdecoded⟩, rows, hrows, hemitted, hhints, hentries, hrep⟩

end HintTable

/-! ## Fields that are cut off -/

namespace Container

/-- Given the bytes of the fields `fs` up to somewhere inside one of them, `k` reports the size of that field. -/
def Cuts {ε β : Type} (tell : ContainerFault → ε) (k : List UInt8 → Except ε β) (fs : List (List UInt8)) : Prop :=
  ∀ before field after front, fs = before ++ field :: after → front <+: field → front ≠ field →
    k (before.flatten ++ front) = .error (tell (.truncated (8 * field.length)))

section Cuts

variable {α β ε : Type} {tell : ContainerFault → ε} {fs gs : List (List UInt8)}

theorem cuts_nil (k : List UInt8 → Except ε β) : Cuts tell k [] := by
  intro before field after front h
  cases before <;> cases h

/-- What is reported may be told in other words. -/
theorem Cuts.mapError {k : List UInt8 → Except ContainerFault β} (hk : Cuts id k fs) :
    Cuts tell (fun bytes => (k bytes).mapError tell) fs := by
  intro before field after front h hfront hne
  simp only [hk before field after front h hfront hne]
  rfl

/-- First one thing is read, then others: the cut is in the fields of the first, or these are all there. -/
theorem Cuts.bind {read : List UInt8 → Except ε (α × List UInt8)} {k : α × List UInt8 → Except ε β} {x : α}
    (hread : Cuts tell read fs) (hx : ∀ rest, read (fs.flatten ++ rest) = .ok (x, rest))
    (hk : Cuts tell (fun bytes => k (x, bytes)) gs) : Cuts tell (fun bytes => read bytes >>= k) (fs ++ gs) := by
  intro before field after front h hfront hne
  rcases List.append_eq_append_iff.mp h with ⟨before, rfl, rfl⟩ | ⟨after', rfl, hafter⟩
  · have := hk before field after front rfl hfront hne
    simp only [List.flatten_append, List.append_assoc, hx]
    exact this
  · cases after' with
    | nil =>
      have := hk [] field after front (by simpa using hafter.symm) hfront hne
      simp only [List.append_nil] at hx
      simp only [hx]
      exact this
    | cons field' after' =>
      cases hafter
      simp only [hread before field after' front rfl hfront hne]
      rfl

/-- Whatever is done after the last field makes no difference. -/
theorem Cuts.andThen {γ : Type} {read : List UInt8 → Except ε γ} (hread : Cuts tell read fs) (k : γ → Except ε β) :
    Cuts tell (fun bytes => read bytes >>= k) fs := by
  intro before field after front h hfront hne
  simp only [hread before field after front h hfront hne]
  rfl

/-- A single field. -/
theorem cuts_single {k : List UInt8 → Except ε β} {field : List UInt8}
    (hk : ∀ front, front <+: field → front ≠ field → k front = .error (tell (.truncated (8 * field.length)))) :
    Cuts tell k [field] := by
  intro before field' after front h hfront hne
  cases before with
  | nil =>
    cases h
    exact hk front hfront hne
  | cons f before => cases before <;> cases h

end Cuts

theorem cuts_readByte (b : UInt8) : Cuts id readByte [[b]] := by
  refine cuts_single fun front hfront hne => ?_
  rcases List.prefix_cons_iff.mp hfront with rfl | ⟨front, rfl, hnil⟩
  · rfl
  · rw [List.prefix_nil.mp hnil] at hne
    exact absurd rfl hne

theorem readWord_of_length_lt {bytes : List UInt8} (h : bytes.length < 4) : readWord bytes = .error (.truncated 32) := by
  match bytes with
  | [] => rfl
  | [_] => rfl
  | [_, _] => rfl
  | [_, _, _] => rfl
  | _ :: _ :: _ :: _ :: _ =>
    simp only [List.length_cons] at h
    omega

theorem cuts_readWord (n : Nat) : Cuts id readWord [word n] := by
  refine cuts_single fun front hfront hne => readWord_of_length_lt ?_
  have hlen : front.length ≠ (word n).length := fun h => hne (hfront.eq_of_length h)
  have : (word n).length = 4 := rfl
  have := hfront.length_le
  omega

/-! ## The fields of a container -/

/-- The fields of an entry, in the order in which they are written. -/
def RawEntry.layout (r : RawEntry) : List (List UInt8) := [[r.cls], [r.idx], word r.nextUse]

/-- The fields of a hint and of its entries. -/
def RawHint.layout (r : RawHint) : List (List UInt8) :=
  [word r.iidx, [UInt8.ofNat r.entries.length]] ++ r.entries.flatMap RawEntry.layout

theorem flatten_flatMap {α : Type} {layout : α → List (List UInt8)} {write : α → List UInt8}
    (h : ∀ x, (layout x).flatten = write x) (xs : List α) : (xs.flatMap layout).flatten = xs.flatMap write := by
  induction xs with
  | nil => rfl
  | cons x xs ih => simp only [List.flatMap_cons, List.flatten_append, ih, h]

theorem RawEntry.flatten_layout (r : RawEntry) : r.layout.flatten = r.bytes := rfl

theorem RawHint.flatten_layout (r : RawHint) : r.layout.flatten = r.bytes := by
  simp only [layout, bytes, List.flatten_append, flatten_flatMap RawEntry.flatten_layout]
  rfl

theorem cuts_readEntry (r : RawEntry) : Cuts id readEntry r.layout := by
  refine (cuts_readByte r.cls).bind (fun _ => rfl) ?_
  refine (cuts_readByte r.idx).bind (fun _ => rfl) ?_
  exact (cuts_readWord r.nextUse).andThen _

/-- **A counted sequence is cut inside one of its things.** -/
theorem Inverts.cuts_readMany {α : Type} {read : Reader α} {write : α → List UInt8} {ok : α → Prop}
    {layout : α → List (List UInt8)} (h : Inverts read write ok) (hlayout : ∀ x, (layout x).flatten = write x)
    (hcuts : ∀ x, ok x → Cuts id read (layout x)) {xs : List α} (hok : ∀ x ∈ xs, ok x) :
    Cuts id (Container.readMany read xs.length) (xs.flatMap layout) := by
  induction xs with
  | nil => exact cuts_nil _
  | cons x xs ih =>
    obtain ⟨hx, hxs⟩ := List.forall_mem_cons.mp hok
    refine (hcuts x hx).bind (fun rest => (h _ _ _).mpr ⟨hx, by rw [hlayout]⟩) ?_
    exact (ih hxs).andThen _

theorem cuts_readHint (r : RawHint) (hr : r.Fits) : Cuts id readHint r.layout := by
  have hcount : (UInt8.ofNat r.entries.length).toNat = r.entries.length := by
    rw [UInt8.toNat_ofNat', Nat.mod_eq_of_lt hr.length_lt]
  have hentries := inverts_readEntry.cuts_readMany RawEntry.flatten_layout (fun x _ => cuts_readEntry x)
    hr.entries
  rw [← hcount] at hentries
  refine (cuts_readWord r.iidx).bind (readWord_word hr.iidx_lt) ?_
  refine (cuts_readByte _).bind (fun _ => rfl) ?_
  exact hentries.andThen _

/-- The fields of a body with `n` instructions and the hints `hs`. -/
def bodyLayout (n : Nat) (hs : List RawHint) : List (List UInt8) :=
  [word n, word hs.length] ++ hs.flatMap RawHint.layout

theorem cuts_readBody {n : Nat} {hs : List RawHint} (hn : n < 2 ^ 32) (hlen : hs.length < 2 ^ 32)
    (hfit : ∀ h ∈ hs, h.Fits) : Cuts id readBody (bodyLayout n hs) := by
  refine (cuts_readWord n).bind (readWord_word hn) ?_
  refine (cuts_readWord hs.length).bind (readWord_word hlen) ?_
  exact (inverts_readHint.cuts_readMany RawHint.flatten_layout cuts_readHint hfit).andThen _

/-- Bytes behind the last hint are counted. -/
theorem readBody_append {n : Nat} {hs : List RawHint} (hn : n < 2 ^ 32) (hlen : hs.length < 2 ^ 32)
    (hfit : ∀ h ∈ hs, h.Fits) {more : List UInt8} (hmore : more ≠ []) :
    readBody ((bodyLayout n hs).flatten ++ more) = .error (.trailing more.length) := by
  have hflatten : (bodyLayout n hs).flatten ++ more =
      word n ++ (word hs.length ++ (hs.flatMap RawHint.bytes ++ more)) := by
    simp [bodyLayout, flatten_flatMap RawHint.flatten_layout]
  have hhints : readMany readHint hs.length (hs.flatMap RawHint.bytes ++ more) = .ok (hs, more) :=
    (inverts_readHint.readMany _ _ _ _).mpr ⟨⟨rfl, hfit⟩, rfl⟩
  rw [hflatten, readBody]
  refine (bind_of_ok (readWord_word hn _) _).trans ?_
  refine (bind_of_ok (readWord_word hlen _) _).trans ?_
  refine (bind_of_ok hhints _).trans ?_
  exact if_neg (by simpa using hmore)

/-- A strict initial part of the bytes of some fields ends inside one of them. -/
theorem exists_cut {fs : List (List UInt8)} {p : List UInt8} (hp : p <+: fs.flatten) (hne : p ≠ fs.flatten) :
    ∃ before field after front, fs = before ++ field :: after ∧ p = before.flatten ++ front ∧
      front <+: field ∧ front ≠ field := by
  induction fs generalizing p with
  | nil => exact absurd (List.prefix_nil.mp hp) hne
  | cons f fs ih =>
    rw [List.flatten_cons] at hp hne
    by_cases hf : f <+: p
    · -- the first field is all there
      obtain ⟨p, rfl⟩ := hf
      have hp := (List.prefix_append_right_inj f).mp hp
      have hne : p ≠ fs.flatten := fun h => hne (by rw [h])
      obtain ⟨before, field, after, front, rfl, rfl, hfront, hne⟩ := ih hp hne
      exact ⟨f :: before, field, after, front, rfl, by simp, hfront, hne⟩
    · have hpf := (List.prefix_or_prefix_of_prefix hp (List.prefix_append f _)).resolve_right hf
      exact ⟨[], f, fs, p, rfl, rfl, hpf, fun h => hf (h ▸ List.prefix_refl f)⟩

end Container

/-! ## Containers that are cut off or too long -/

namespace HintTable

variable {t : HintTable}

/-- The fields of the container of a table, in the order in which they are written. -/
def layout (t : HintTable) : List (List UInt8) :=
  [Container.word Container.magic, Container.word t.edition.number] ++
    Container.bodyLayout t.instsLen (t.hints.map Hint.fields)

/-- The fields of the hints of a well-formed table have room for their numbers. -/
theorem WellFormed.fits (ht : t.WellFormed) : ∀ r ∈ t.hints.map Hint.fields, r.Fits := by
  intro r hr
  obtain ⟨h, hh, rfl⟩ := List.mem_map.mp hr
  exact (ht.hints h hh).fits (Nat.lt_trans (ht.below h hh) ht.insts_lt)

/-- The hints of a well-formed table can be counted with 32 bits. -/
theorem WellFormed.length_fields_lt (ht : t.WellFormed) : (t.hints.map Hint.fields).length < 2 ^ 32 := by
  rw [List.length_map]
  exact Nat.lt_of_le_of_lt ht.numHints_le ht.insts_lt

theorem flatten_layout (t : HintTable) : t.layout.flatten = t.bytes := by
  have hhints : (t.hints.map Hint.fields).flatMap Container.RawHint.bytes = t.hints.flatMap encodeHint := by
    rw [List.flatMap_map]
    exact List.flatMap_congr fun h _ => (encodeHint_eq h).symm
  simp only [layout, Container.bodyLayout, List.flatten_append, List.length_map,
    Container.flatten_flatMap Container.RawHint.flatten_layout, hhints, bytes, List.append_assoc]
  rfl

theorem readWord_mapError {n : Nat} (hn : n < 2 ^ 32) (rest : List UInt8) :
    (Container.readWord (Container.word n ++ rest)).mapError Rejection.decode = .ok (n, rest) :=
  mapError_ok_iff.mpr (Container.readWord_word hn rest)

/-- **A container that is cut off is recognised by the field that is not all there.** -/
theorem WellFormed.cuts_decode (ht : t.WellFormed) (e : Edition) :
    Container.Cuts .decode (fun bytes => decode bytes e) t.layout := by
  obtain ⟨edition, n, hints⟩ := t
  cases e
  cases edition
  have hbody := Container.cuts_readBody ht.insts_lt ht.length_fields_lt ht.fits
  refine (Container.cuts_readWord Container.magic).mapError.bind (readWord_mapError (by decide)) ?_
  refine (Container.cuts_readWord 0).mapError.bind (readWord_mapError (by decide)) ?_
  exact hbody.mapError.andThen _

/-- What comes after a header of the edition is read as the body. -/
theorem decode_header_append (body : List UInt8) :
    decode (Container.word Container.magic ++ (Container.word 0 ++ body)) .e0 = do
      let (numInsts, raw) ← (Container.readBody body).mapError .decode
      let hints ← (Container.checkHints .e0 numInsts 0 raw).mapError .decode
      return ⟨.e0, numInsts, hints⟩ := by
  refine (bind_of_ok (readWord_mapError (by decide) _) _).trans ?_
  exact (bind_of_ok (readWord_mapError (by decide) _) _).trans rfl

/-- **Bytes behind a container are counted.** -/
theorem WellFormed.decode_append (ht : t.WellFormed) (e : Edition) {more : List UInt8} (hmore : more ≠ []) :
    decode (t.bytes ++ more) e = .error (.decode (.trailing more.length)) := by
  obtain ⟨edition, n, hints⟩ := t
  cases e
  cases edition
  have hbody := Container.readBody_append ht.insts_lt ht.length_fields_lt ht.fits hmore
  rw [← flatten_layout, layout, List.flatten_append, List.append_assoc]
  refine (decode_header_append _).trans ?_
  rw [hbody]
  rfl

end HintTable

theorem ContainerFault.message_truncated (size : Nat) :
    (truncated (8 * size)).message = s!"Not enough data, need {8 * size} bits (or {size} bytes)" := by
  have hmessage (bits : Nat) : (truncated bits).message = s!"Not enough data, need {bits} bits (or {bits / 8} bytes)" :=
    rfl
  rw [hmessage, Nat.mul_div_cancel_left size (by decide)]

namespace HintTable

variable {t : HintTable}

/-- **A container is self-delimiting.** The bytes of a table that is made are those of its fields. Bytes that end
before the last field is complete are refused, and the field in which they end is what is reported, by its size. A
container with further bytes behind it is refused, and their number is what is reported. -/
theorem decode_delimits (ht : t.Made) (e : Edition) : ∃ b, t.encode = .ok b ∧ t.layout.flatten = b ∧
    (∀ p, p <+: b → p ≠ b → ∃ before field after front, t.layout = before ++ field :: after ∧
      p = before.flatten ++ front ∧ front <+: field ∧ front ≠ field ∧
      decode p e = .error (.decode (.truncated (8 * field.length)))) ∧
    (∀ k more, 1 ≤ k → more.length = k → decode (b ++ more) e = .error (.decode (.trailing k))) ∧
    (∀ size, (ContainerFault.truncated (8 * size)).message =
      s!"Not enough data, need {8 * size} bits (or {size} bytes)") ∧
    ∀ k, (ContainerFault.trailing k).message = s!"{k} trailing bytes" := by
  have hwf := ht.wellFormed
  refine ⟨t.bytes, hwf.encode_eq, t.flatten_layout, fun p hp hne => ?_, ?_, ContainerFault.message_truncated,
    fun _ => rfl⟩
  · rw [← flatten_layout] at hp hne
    obtain ⟨before, field, after, front, hlayout, rfl, hfront, hne⟩ := Container.exists_cut hp hne
    exact ⟨before, field, after, front, hlayout, rfl, hfront, hne,
      hwf.cuts_decode e before field after front hlayout hfront hne⟩
  · rintro k more hk rfl
    exact hwf.decode_append e (List.length_pos_iff.mp hk)

/-- The container of `twoHints`, cut off or with bytes behind it. -/
theorem twoHints_delimits : twoHints.Made ∧ ∃ b, twoHints.encode = .ok b ∧ twoHints.layout.flatten = b ∧
    (∀ p, p <+: b → p ≠ b → ∃ before field after front, twoHints.layout = before ++ field :: after ∧
      p = before.flatten ++ front ∧ front <+: field ∧ front ≠ field ∧
      decode p .e0 = .error (.decode (.truncated (8 * field.length)))) ∧
    ∀ k more, 1 ≤ k → more.length = k → decode (b ++ more) .e0 = .error (.decode (.trailing k)) := by
  have hread : decode twoHints.bytes .e0 = .ok twoHints := by decide +kernel
  have hmade := Made.decode hread
  obtain ⟨b, hb, hlayout, hcut, hmore, -⟩ := decode_delimits hmade .e0
  exact ⟨hmade, b, hb, hlayout, hcut, hmore⟩

end HintTable

end ChillHints
