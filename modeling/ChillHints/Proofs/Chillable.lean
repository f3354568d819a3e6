import ChillHints.Proofs.Container
import ChillHints.Proofs.Hinted

/-!
# Which tables a run can follow

A table that was read from a container can be any well-formed one. Its two readers are `chillable`, which finds the
entry of a register by class and number, and the store that follows hints, which goes by the number alone. In a
well-formed table no two entries of a hint have both in common, so `chillable` answers for every entry
(`WellFormed.chillable_register`), and what the entries say can be told from its answers.

If these promise no more than the next uses of a valid unit, for general purpose registers and, as if it were `r0`, for
the stack pointer, then the table is sound (`sound_of_chillsWithin`), and the run is seen as without hints
(`runHinted_of_chillsWithin`). Without the condition on the stack pointer it may break off, although no general purpose
register can be chilled at all (`stackHints_runHinted`).
-/

namespace ChillHints

/-! ## Entries and their registers -/

/-- The register that stands for a group is the narrowest view. -/
theorem Group.head?_members {i : UInt8} {w : Width} {g : Group} (h : (Reg.gp i w).group? = some g) :
    g.members.head? = some (.gp i .w8) := by
  have hne := Reg.gp_group_ne_sp h
  simp only [Reg.group?, Option.dite_none_right_eq_some, Option.some.injEq] at h
  obtain ⟨_, rfl⟩ := h
  simp [members, gpIdx?, hne, Width.all]

namespace HintEntry

variable {e : Edition} {x y : HintEntry}

/-- The register that the entry is about, as `chillable` looks it up. -/
def register (x : HintEntry) : Reg :=
  match x.cls with
  | .gp => .gp x.idx .w8
  | .sp => .sp

/-- Among the registers of an edition, an entry is about the register of another one if it has the same key. -/
theorem covers_register (hx : x.InEdition e) (hy : y.InEdition e) : y.covers x.register = true ↔ y.key = x.key := by
  obtain ⟨cx, ix, _⟩ := x
  obtain ⟨cy, iy, _⟩ := y
  have hix := ix.toNat_lt
  have hiy := iy.toNat_lt
  cases cx with
  | gp =>
    cases cy with
    | gp => simp [covers, register, key, ← UInt8.toNat_inj]
    | sp => simp [covers, register, key, RegClass.code]; omega
  | sp =>
    cases cy with
    | gp => simp [covers, register, key, RegClass.code]; omega
    | sp =>
      have hx : ix = 0 := hx
      have hy : iy = 0 := hy
      simp [covers, register, key, hx, hy]

/-- The register of an entry of the edition is in the edition, and is the one that stands for its group. -/
theorem InEdition.register_eq (hx : x.InEdition e) : e.check x.register = .ok () ∧
    ∃ g, x.register.group? = some g ∧ g.members.head? = some x.register := by
  obtain ⟨c, i, _⟩ := x
  cases e
  cases c with
  | gp =>
    have hi : i.toNat < 15 := hx
    have hgroup : (Reg.gp i .w8).group? = some ⟨i.toNat, by omega⟩ := by simp [Reg.group?, hi]
    refine ⟨?_, _, hgroup, Group.head?_members hgroup⟩
    simp [register, Edition.check, Edition.numGp, Edition.widths, Width.all, hi]
  | sp => exact ⟨rfl, Group.sp, rfl, rfl⟩

/-- Following an entry acts on the group of its register, or on that of `r0` if it is about the stack pointer. -/
theorem InEdition.exists_group (hx : x.InEdition e) : ∃ g, (Reg.gp x.idx .w64).group? = some g ∧
    (g ≠ Group.sp ∧ x.register ∈ g.members ∨ x.register = .sp ∧ g = 0) := by
  obtain ⟨c, i, _⟩ := x
  cases e
  cases c with
  | gp =>
    have hi : i.toNat < 15 := hx
    have hgroup : (Reg.gp i .w64).group? = some ⟨i.toNat, by omega⟩ := by simp [Reg.group?, hi]
    exact ⟨_, hgroup, Or.inl ⟨Reg.gp_group_ne_sp hgroup, List.mem_of_head? (Group.head?_members hgroup)⟩⟩
  | sp =>
    have hi : i = 0 := hx
    exact ⟨0, by rw [hi]; rfl, Or.inr ⟨rfl, rfl⟩⟩

end HintEntry

/-! ## The answers of a well-formed table -/

/-- The search for the register of an entry stops at this entry. -/
theorem Hint.WellFormed.find?_register {e : Edition} {h : Hint} (hwf : h.WellFormed e) {x : HintEntry}
    (hx : x ∈ h.entries) : h.entries.find? (·.covers x.register) = some x := by
  have hin := hwf.inEdition x hx
  have hnodup := Container.nodup_map_of_pairwise_lt (HintEntry.pairwise_precedes.1 hwf.ascending)
  -- the search stops at an entry with the key of `x`, and there is only one
  have hself : x.covers x.register = true := (HintEntry.covers_register hin hin).2 rfl
  obtain ⟨y, hy⟩ := Option.isSome_iff_exists.1 (List.find?_isSome (p := (·.covers x.register)).2 ⟨x, hx, hself⟩)
  have hmem := List.mem_of_find?_eq_some hy
  have hcovers := List.find?_some hy
  have hkey := (HintEntry.covers_register hin (hwf.inEdition y hmem)).1 hcovers
  rw [hy, List.inj_on_of_nodup_map hnodup hmem hx hkey]

namespace HintTable

variable {T : HintTable} {u : CompiledUnit} {t : NextUseTable} {i : Nat}

/-- **Every entry of a well-formed table is the answer for its register.** -/
theorem WellFormed.chillable_register (hT : T.WellFormed) {h : Hint} (hh : T.hint? i = some h) {x : HintEntry}
    (hx : x ∈ h.entries) : T.chillable i x.register = some x.nextUse := by
  have hwf := hT.hints h (hint?_some hh).1
  have hfind := hwf.find?_register hx
  obtain ⟨hcheck, g, hg, hhead⟩ := (hwf.inEdition x hx).register_eq
  simp only [chillable, hcheck, hg, hhead, hh, hfind, Option.bind_eq_bind, Option.bind_some, Option.pure_def]

end HintTable

theorem NextUse.Allows.of_le {a b : NextUse} {n : Nat} (hb : b.Allows n) (hab : a ≤ b) : a.Allows n := by
  have hrank : a.rank ≤ b.rank := hab
  cases b with
  | never => cases hb
  | after d =>
    cases a with
    | never =>
      have : maxDistance + 1 ≤ d.val := hrank
      have := d.le_max
      omega
    | after d' => exact Nat.le_trans hrank hb

/-! ## Runs -/

namespace CompiledUnit

variable {u : CompiledUnit} {T : HintTable} {t : NextUseTable}

/-- Wherever `r` can be chilled in `u`, it is until no later than the next use of `g` that `t` has there. -/
def ChillsWithin (u : CompiledUnit) (T : HintTable) (t : NextUseTable) (r : Reg) (g : Group) : Prop :=
  ∀ i < u.insts.length, ∀ nu, T.chillable i r = some nu → ∃ nu', t.nextUse i g = .ok nu' ∧ nu ≤ nu'

instance (r : Reg) (g : Group) : Decidable (u.ChillsWithin T t r g) :=
  decidable_of_iff (∀ i < u.insts.length, ∀ nu ∈ T.chillable i r, ∃ nu' ∈ (t.nextUse i g).toOption, nu ≤ nu') <| by
    simp only [Option.mem_def, toOption_eq_some, ChillsWithin]

/-- A well-formed table is sound if general purpose registers are chilled within their own next uses, and the stack
pointer within those of `r0`. -/
theorem sound_of_chillsWithin (hv : u.validate = .ok ()) (ht : u.analyse = .ok t) (hT : T.WellFormed)
    (hgp : ∀ g ≠ Group.sp, ∀ r ∈ g.members, u.ChillsWithin T t r g) (hsp : u.ChillsWithin T t .sp 0) : T.Sound u := by
  intro i h hh x hx
  obtain ⟨g, hg, hregister⟩ := ((hT.hints h (HintTable.hint?_some hh).1).inEdition x hx).exists_group
  refine ⟨g, hg, fun n hn => ?_⟩
  have hwithin : u.ChillsWithin T t x.register g := by
    rcases hregister with ⟨hne, hmem⟩ | ⟨hstack, rfl⟩
    · exact hgp g hne _ hmem
    · rw [hstack]
      exact hsp
  -- a hint behind the end of the unit is about no use at all
  obtain ⟨-, -, ⟨b, k, rfl, hk, -⟩, -⟩ := usedAt_iff.mp hn
  obtain ⟨inst, hat⟩ := exists_at_of_lt hk
  obtain ⟨nu, hnu, hle⟩ := hwithin _ (List.getElem?_eq_some_iff.1 hat.getElem?_insts).1 _ (hT.chillable_register hh hx)
  obtain ⟨nu', hnu', hallows⟩ := exists_nextUse_allows hv ht hat g
  cases hnu'.symm.trans hnu
  exact (hallows n hn).of_le hle

/-- **A run breaks off only if the table promises too much.** Whatever table was read from a container, if it chills no
general purpose register of a valid unit beyond its next use, nor the stack pointer beyond the next use of `r0`, then
the unit runs to its end and the same is seen of it as without hints. -/
theorem runHinted_of_chillsWithin (u : CompiledUnit) (hv : u.validate = .ok ()) {bytes : List UInt8} {T : HintTable}
    (hT : HintTable.decode bytes .e0 = .ok T) {t : NextUseTable} (ht : u.analyse = .ok t)
    (hgp : ∀ g ≠ Group.sp, ∀ r ∈ g.members, u.ChillsWithin T t r g) (hsp : u.ChillsWithin T t .sp 0) :
    ∃ events discards, u.runDirect = .ok events ∧ u.runHinted T = .ok (events, discards) := by
  have hsound := sound_of_chillsWithin hv ht (HintTable.decode_eq_ok.1 hT).1 hgp hsp
  obtain ⟨ending, s, hs⟩ := ofUnit_direct_ok hv
  obtain ⟨s', hs', hevents⟩ := follows_sound (structured_of_valid hv) hsound hs
  refine ⟨s.events, s'.regs.discards, ?_, ?_⟩
  · simp only [runDirect, Run.result, hs, Except.map]
  · simp only [runHinted, Run.result, hs', Except.map, hevents]

/-- Hints for the loop: `r0` is chilled for less than it could be, the stack pointer is chilled as well, and the last
hint is for no instruction of the loop. -/
def countdownHints : HintTable where
  edition := .e0
  instsLen := 20
  hints := [
    ⟨0, [⟨.gp, 0, .after ⟨2, by decide, by decide⟩⟩, ⟨.sp, 0, .next⟩]⟩,
    ⟨7, [⟨.gp, 2, .never⟩]⟩,
    ⟨12, [⟨.gp, 3, .never⟩]⟩]

/-- The hints chill nothing for too long, and the loop runs to its end with them. -/
theorem countdownHints_runHinted : countdown.validate = .ok () ∧
    HintTable.decode countdownHints.bytes .e0 = .ok countdownHints ∧ ∃ t, countdown.analyse = .ok t ∧
      (∀ g ≠ Group.sp, ∀ r ∈ g.members, countdown.ChillsWithin countdownHints t r g) ∧
      countdown.ChillsWithin countdownHints t .sp 0 ∧
      ∃ events discards, countdown.runDirect = .ok events ∧
        countdown.runHinted countdownHints = .ok (events, discards) := by
  have hv : countdown.validate = .ok () := by decide +kernel
  have hT : HintTable.decode countdownHints.bytes .e0 = .ok countdownHints := by decide +kernel
  obtain ⟨t, ht, hgp, hsp⟩ : ∃ t ∈ countdown.analyse.toOption,
      (∀ g ≠ Group.sp, ∀ r ∈ g.members, countdown.ChillsWithin countdownHints t r g) ∧
        countdown.ChillsWithin countdownHints t .sp 0 := by
    decide +kernel
  have ht := toOption_eq_some.1 ht
  exact ⟨hv, hT, t, ht, hgp, hsp, runHinted_of_chillsWithin countdown hv hT ht hgp hsp⟩

/-- A value that is read right after it was written. -/
def readBack : CompiledUnit where
  name := "read_back"
  edition := .e0
  blocks := [[.const (.gp 0 .w64) 1, .blackbox (.gp 0 .w64)]]
  blocks_ne_nil := by decide

/-- The stack pointer is never used again after the first instruction. -/
def stackHints : HintTable where
  edition := .e0
  instsLen := 2
  hints := [⟨0, [⟨.sp, 0, .never⟩]⟩]

/-- An entry for the stack pointer is taken for one for `r0`: no general purpose register can be chilled, but the value
of `r0` is thrown away and the run breaks off. -/
theorem stackHints_runHinted : readBack.validate = .ok () ∧
    HintTable.decode stackHints.bytes .e0 = .ok stackHints ∧
    (∃ t, readBack.analyse = .ok t ∧ ∀ g ≠ Group.sp, ∀ r ∈ g.members, readBack.ChillsWithin stackHints t r g) ∧
    readBack.runDirect = .ok [.blackbox 1] ∧ readBack.runHinted stackHints = .error (.readAfterForever 0 2) := by
  obtain ⟨t, ht, hgp⟩ : ∃ t ∈ readBack.analyse.toOption,
      ∀ g ≠ Group.sp, ∀ r ∈ g.members, readBack.ChillsWithin stackHints t r g := by
    decide +kernel
  exact ⟨by decide +kernel, by decide +kernel, ⟨t, toOption_eq_some.1 ht, hgp⟩, by decide +kernel, by decide +kernel⟩

end CompiledUnit

end ChillHints
