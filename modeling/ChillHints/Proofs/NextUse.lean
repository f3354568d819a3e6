import ChillHints.NextUse.Table
import ChillHints.Proofs.UsePath
import ChillHints.Proofs.Validity

/-!
# Next uses are shortest paths

The scan ends with uses on entry to the blocks that are fixed (`entryUses_fixed`) and justified: every distance found
is the length of a use path, cut off at the largest distance (`Justified`). From the first it follows that no use
path is shorter than what was found (`rank_usesFrom_le`), from the second that some use path is as long
(`exists_useIn_of_usesFrom`). So the table has the length of the shortest use path, and `never` where there is none
(`analyse_nextUse_exact`).

The order of the uses is by rank, in which `never` comes last.
-/

namespace ChillHints

/-! ## Ranks -/

namespace NextUse

variable {a b : NextUse}

theorem rank_le (a : NextUse) : a.rank ≤ maxDistance + 1 := by
  cases a with
  | after d => exact Nat.le_succ_of_le d.le_max
  | never => exact Nat.le_refl _

theorem rank_inj (h : a.rank = b.rank) : a = b := by
  cases a with
  | after d =>
    cases b with
    | after d' =>
      cases d; cases d'
      cases h
      rfl
    | never =>
      have := d.le_max
      simp only [rank] at h
      omega
  | never =>
    cases b with
    | after d =>
      have := d.le_max
      simp only [rank] at h
      omega
    | never => rfl

theorem rank_sooner (a b : NextUse) : (sooner a b).rank = min a.rank b.rank := by
  unfold sooner
  split
  · rename_i h; exact (Nat.min_eq_left h).symm
  · rename_i h; exact (Nat.min_eq_right (Nat.le_of_not_le h)).symm

theorem sooner_eq_or (a b : NextUse) : sooner a b = a ∨ sooner a b = b := by
  unfold sooner
  split
  · exact Or.inl rfl
  · exact Or.inr rfl

/-- Seen from one instruction earlier, a use at rank `r` is at the next rank, as long as there is one. -/
theorem rank_succ (a : NextUse) : a.succ.rank = if a.rank = maxDistance + 1 then maxDistance + 1
    else min (a.rank + 1) maxDistance := by
  cases a with
  | after d =>
    have := d.le_max
    rw [if_neg (by simp only [rank]; omega)]
    rfl
  | never => rfl

theorem rank_succ_mono (h : a.rank ≤ b.rank) : a.succ.rank ≤ b.succ.rank := by
  have ha := rank_le a
  have hb := rank_le b
  rw [rank_succ, rank_succ]
  split <;> split <;> omega

theorem rank_next : next.rank = 1 := rfl

end NextUse

/-! ## Uses of all groups -/

namespace Uses

variable {s t : Uses} {g : Group}

/-- Every use in `s` is at least as soon as in `t`. -/
abbrev Le : Uses → Uses → Prop := Below fun a b => a.rank ≤ b.rank

/-- The weight of uses is the sum of their ranks. -/
abbrev weight : Uses → Nat := weigh NextUse.rank

theorem get_map_succ (s : Uses) (g : Group) : (s.map NextUse.succ).get g = (s.get g).succ :=
  Vector.getElem_map NextUse.succ g.isLt

theorem get_foldl_kill (as : List Access) (s : Uses) :
    (as.foldl kill s).get g = if ∃ a ∈ as, a.role ≠ .read ∧ a.group = g then .never else s.get g := by
  induction as generalizing s with
  | nil => simp
  | cons a as ih =>
    have hkill : (kill s a).get g = if a.role ≠ .read ∧ a.group = g then .never else s.get g := by
      unfold kill
      split
      · rename_i h; simp [h]
      · rename_i h; simp [Cells.get_put, show a.role ≠ .read from h]
    rw [List.foldl_cons, ih, hkill]
    simp only [List.exists_mem_cons_iff]
    split <;> split <;> simp_all

theorem get_foldl_read (as : List Access) (s : Uses) :
    (as.foldl read s).get g = if ∃ a ∈ as, a.role = .read ∧ a.group = g then .next else s.get g := by
  induction as generalizing s with
  | nil => simp
  | cons a as ih =>
    have hread : (read s a).get g = if a.role = .read ∧ a.group = g then .next else s.get g := by
      unfold read
      split
      · rename_i h; simp [h, Cells.get_put]
      · rename_i h; simp [show a.role ≠ .read from h]
    rw [List.foldl_cons, ih, hread]
    simp only [List.exists_mem_cons_iff]
    split <;> split <;> simp_all

/-- What an instruction makes of the use of one group. -/
theorem get_before (e : Edition) (i : Inst) (s : Uses) (g : Group) : (before (i.accesses e) s).get g =
    if i.Reads g then .next else if i.Ends g then .never else (s.get g).succ := by
  rw [before, get_foldl_read, get_foldl_kill, get_map_succ]
  simp only [Inst.exists_read_access, Inst.exists_end_access]

theorem before_mono (e : Edition) (i : Inst) (h : Le s t) : Le (before (i.accesses e) s) (before (i.accesses e) t) := by
  intro g
  simp only [get_before]
  split
  · exact Nat.le_refl _
  · split
    · exact Nat.le_refl _
    · exact NextUse.rank_succ_mono (h g)

theorem foldr_before_mono (e : Edition) (is : List Inst) (h : Le s t) :
    Le ((is.map (Inst.accesses e)).foldr before s) ((is.map (Inst.accesses e)).foldr before t) := by
  induction is with
  | nil => exact h
  | cons i is ih => exact before_mono e i ih

theorem rank_join (s t : Uses) (g : Group) : ((s.join t).get g).rank = min (s.get g).rank (t.get g).rank := by
  rw [join, Cells.get_tabulate, NextUse.rank_sooner]

/-- The join of many uses is below each of them. -/
theorem foldl_join_le {n : Nat} (entries : Cells n Uses) (cs : List (Fin n)) (s : Uses) (g : Group) :
    ((cs.foldl (fun s t => s.join (entries.get t)) s).get g).rank ≤ (s.get g).rank ∧
      ∀ c ∈ cs, ((cs.foldl (fun s t => s.join (entries.get t)) s).get g).rank ≤ ((entries.get c).get g).rank := by
  induction cs generalizing s with
  | nil => exact ⟨Nat.le_refl _, fun c hc => by cases hc⟩
  | cons d cs ih =>
    obtain ⟨hs, hcs⟩ := ih (s.join (entries.get d))
    rw [rank_join] at hs
    rw [List.foldl_cons]
    refine ⟨by omega, fun c hc => ?_⟩
    rcases List.mem_cons.mp hc with rfl | hc
    · omega
    · exact hcs c hc

/-- The join of many uses is one of them. -/
theorem foldl_join_eq {n : Nat} (entries : Cells n Uses) (cs : List (Fin n)) (s : Uses) (g : Group) :
    (cs.foldl (fun s t => s.join (entries.get t)) s).get g = s.get g ∨
      ∃ c ∈ cs, (cs.foldl (fun s t => s.join (entries.get t)) s).get g = (entries.get c).get g := by
  induction cs generalizing s with
  | nil => exact Or.inl rfl
  | cons d cs ih =>
    rw [List.foldl_cons]
    rcases ih (s.join (entries.get d)) with h | ⟨c, hc, h⟩
    · rw [h, join, Cells.get_tabulate]
      rcases NextUse.sooner_eq_or (s.get g) ((entries.get d).get g) with h | h
      · exact Or.inl h
      · exact Or.inr ⟨d, List.mem_cons_self, h⟩
    · exact Or.inr ⟨c, List.mem_cons_of_mem _ hc, h⟩

theorem foldl_join_mono {n : Nat} {v v' : Cells n Uses} (h : Below Le v v') (cs : List (Fin n)) (hst : Le s t) :
    Le (cs.foldl (fun s t => s.join (v.get t)) s) (cs.foldl (fun s t => s.join (v'.get t)) t) := by
  induction cs generalizing s t with
  | nil => exact hst
  | cons c cs ih =>
    apply ih
    intro g
    have hs := hst g
    have hc := h c g
    simp only [rank_join]
    omega

end Uses

/-! ## Uses at every point of a block -/

/-- The uses just before instruction `k` of block `b`, where `entries` are the uses on entry to the blocks. -/
def Flow.usesFrom {n : Nat} (f : Flow n) (entries : Cells n Uses) (b : Fin n) (k : Nat) : Uses :=
  ((f.code.get b).drop k).foldr Uses.before (f.exitUses entries b)

/-- Every distance is the length of a use path from the start of block `b`, as far as it can be told. -/
def Justified (u : CompiledUnit) (b : Fin u.size) (s : Uses) : Prop :=
  ∀ g d, s.get g = .after d → ∃ n, u.UseIn g b 0 n ∧ d.val = min n maxDistance

namespace CompiledUnit

variable {u : CompiledUnit} {f : Flow u.size} {entries : Cells u.size Uses} {g : Group}

theorem IsFlow.usesFrom_at (hf : u.IsFlow f) {b : Fin u.size} {k : Nat} {inst : Inst} (hat : u.At b k inst) :
    f.usesFrom entries b k = Uses.before (inst.accesses u.edition) (f.usesFrom entries b (k + 1)) := by
  have hdrop : (u.blockAt b).drop k = inst :: (u.blockAt b).drop (k + 1) := by
    rw [List.drop_eq_getElem_cons hat.lt, (List.getElem?_eq_some_iff.mp hat).2]
  rw [Flow.usesFrom, Flow.usesFrom, hf.code, ← List.map_drop, ← List.map_drop, hdrop]
  rfl

theorem IsFlow.usesFrom_end (hf : u.IsFlow f) {b : Fin u.size} {k : Nat} (hk : (u.blockAt b).length ≤ k) :
    f.usesFrom entries b k = f.exitUses entries b := by
  rw [Flow.usesFrom, hf.code, List.drop_of_length_le (by simpa using hk)]
  rfl

/-- **A distance that is found is the length of a use path.** -/
theorem IsFlow.exists_useIn_of_usesFrom (hf : u.IsFlow f) (hok : ∀ c, Justified u c (entries.get c)) {b : Fin u.size}
    {k : Nat} {d : Distance} (h : (f.usesFrom entries b k).get g = .after d) :
    ∃ n, u.UseIn g b k n ∧ d.val = min n maxDistance := by
  induction hm : (u.blockAt b).length - k generalizing k d with
  | zero =>
    rw [hf.usesFrom_end (by omega)] at h
    rcases Uses.foldl_join_eq entries (f.graph.succs.get b) Uses.nothing g with hn | ⟨c, hc, hn⟩
    · rw [Flow.exitUses, hn, Uses.nothing, Cells.get_all] at h
      cases h
    · rw [Flow.exitUses, hn] at h
      obtain ⟨n, huse, hd⟩ := hok c g d h
      exact ⟨n, .edge (by omega) ((hf.edge b c).mp hc) huse, hd⟩
  | succ m ih =>
    obtain ⟨inst, hat⟩ := exists_at_of_lt (u := u) (b := b) (k := k) (by omega)
    rw [hf.usesFrom_at hat, Uses.get_before] at h
    split at h
    · rename_i hr
      cases h
      exact ⟨1, .read hat hr, rfl⟩
    · split at h
      · cases h
      · rename_i hends
        cases hs : (f.usesFrom entries b (k + 1)).get g with
        | never => rw [hs] at h; cases h
        | after d' =>
          rw [hs] at h
          cases h
          obtain ⟨n, huse, hd⟩ := ih hs (by omega)
          refine ⟨n + 1, .skip hat hends huse, ?_⟩
          simp only [Distance.succ]
          omega

/-- **No use path is shorter than what is found**, where the uses on entry to the blocks are fixed. -/
theorem IsFlow.rank_usesFrom_le (hf : u.IsFlow f) (hu : u.Structured)
    (hfix : ∀ b, f.entryUsesOf entries b = entries.get b) {b k n : Nat} (h : u.UseIn g b k n) (hb : b < u.size) :
    ((f.usesFrom entries ⟨b, hb⟩ k).get g).rank ≤ min n maxDistance := by
  induction h with
  | read hat hr =>
    rw [hf.usesFrom_at hat, Uses.get_before, if_pos hr]
    exact Nat.le_refl _
  | @skip b k n inst hat hends _ ih =>
    have hn := ih hb
    rw [hf.usesFrom_at hat, Uses.get_before, if_neg hends]
    split
    · rw [NextUse.rank_next]
      simp only [maxDistance]
      omega
    · rw [NextUse.rank_succ, if_neg (by omega)]
      omega
  | @edge b c k n hk hc _ ih =>
    have hlt : c < u.size := hu.successor_lt hc
    have hle := (Uses.foldl_join_le entries (f.graph.succs.get ⟨b, hb⟩) Uses.nothing g).2 ⟨c, hlt⟩
      ((hf.edge ⟨b, hb⟩ ⟨c, hlt⟩).mpr hc)
    rw [hf.usesFrom_end hk]
    refine Nat.le_trans hle ?_
    rw [← hfix]
    exact ih hlt

/-! ## The scan ends -/

/-- Computing uses anew makes them sooner. -/
theorem IsFlow.descent_uses (hf : u.IsFlow f) :
    Descent (fun b v => f.entryUsesOf v b) Uses.Le (Justified u) Uses.weight where
  refl s g := Nat.le_refl _
  trans hst htu g := Nat.le_trans (hst g) (htu g)
  mono b v v' h := by
    simp only [Flow.entryUsesOf, hf.code]
    exact Uses.foldr_before_mono _ _ (Uses.foldl_join_mono h _ fun _ => Nat.le_refl _)
  keeps b v h g d hd := hf.exists_useIn_of_usesFrom h hd
  strict b s t _ h hne := weigh_rank_lt NextUse.rank_inj h hne

/-- The invariant of the scan: no block is twice on the stack, and a block that is not on it is in the state that is
computed for it. -/
structure ScanSound (u : CompiledUnit) (f : Flow u.size) (s : Scan u.size) : Prop where
  nodup : s.todo.Nodup
  falls : Descent.Falls (fun b v => f.entryUsesOf v b) Uses.Le (Justified u) s.entries
  settled : ∀ b, b ∉ s.todo → f.entryUsesOf s.entries b = s.entries.get b

theorem scanSound_initial (u : CompiledUnit) (f : Flow u.size) : ScanSound u f (.initial u.size) where
  nodup := by simp [Scan.initial, List.nodup_finRange]
  falls :=
    { ok := fun b g d h => by simp [Scan.initial, Uses.nothing] at h
      below := fun b g => by
        simp only [Scan.initial, Uses.nothing, Cells.get_all]
        exact NextUse.rank_le _ }
  settled b hb := absurd (by simp [Scan.initial]) hb

/-- Queueing keeps the stack without repetitions and adds the blocks of the list. -/
theorem foldl_queue {n : Nat} (bs todo : List (Fin n)) (h : todo.Nodup) :
    (bs.foldl Scan.queue todo).Nodup ∧ ∀ c, c ∈ bs.foldl Scan.queue todo ↔ c ∈ todo ∨ c ∈ bs := by
  induction bs generalizing todo with
  | nil => exact ⟨h, by simp⟩
  | cons b bs ih =>
    have hq : (Scan.queue todo b).Nodup ∧ ∀ c, c ∈ Scan.queue todo b ↔ c ∈ todo ∨ c = b := by
      unfold Scan.queue
      split
      · rename_i hb
        rw [List.contains_iff_mem] at hb
        exact ⟨h, fun c => ⟨Or.inl, fun hc => hc.elim id fun e => e ▸ hb⟩⟩
      · rename_i hb
        rw [List.contains_iff_mem] at hb
        refine ⟨List.nodup_cons.mpr ⟨hb, h⟩, fun c => ?_⟩
        rw [List.mem_cons]
        exact or_comm
    obtain ⟨hn, hmem⟩ := ih _ hq.1
    refine ⟨hn, fun c => ?_⟩
    rw [List.foldl_cons, hmem, hq.2, List.mem_cons]
    tauto

/-- The uses computed for a block depend on those of its successors only. -/
theorem IsFlow.entryUsesOf_put (b c : Fin u.size) (h : ¬ f.graph.Edge c b) (s : Uses) :
    f.entryUsesOf (entries.put b s) c = f.entryUsesOf entries c := by
  have hexit : f.exitUses (entries.put b s) c = f.exitUses entries c := by
    unfold Flow.exitUses
    apply List.foldl_ext
    intro t d hd
    rw [Cells.get_put_of_ne]
    rintro rfl
    exact h hd
  rw [Flow.entryUsesOf, Flow.entryUsesOf, hexit]

/-- How much work is left: blocks on the stack, and for each change that can still come as many as there are. -/
def scanWeight (s : Scan u.size) : Nat := s.todo.length + u.size * weigh Uses.weight s.entries

/-- A step of the scan keeps the invariant, makes uses sooner, if it changes any, and leaves less work. -/
theorem IsFlow.scan_step (hf : u.IsFlow f) {s s' : Scan u.size} (hs : ScanSound u f s)
    (hstep : Scan.step f s = .inl s') :
    ScanSound u f s' ∧ Below Uses.Le s'.entries s.entries ∧ scanWeight s' < scanWeight s := by
  obtain ⟨entries, todo⟩ := s
  cases todo with
  | nil => simp [Scan.step] at hstep
  | cons b todo =>
    obtain ⟨hb, htodo⟩ := List.nodup_cons.mp hs.nodup
    simp only [Scan.step] at hstep
    split at hstep
    · rename_i heq
      cases hstep
      refine ⟨⟨htodo, hs.falls, fun c hc => ?_⟩, fun _ => hf.descent_uses.refl _, by simp [scanWeight]⟩
      by_cases hcb : c = b
      · rw [hcb]; exact heq
      · exact hs.settled c (by simp [hcb, hc])
    · rename_i hne
      cases hstep
      obtain ⟨hfalls, hbelow⟩ := hf.descent_uses.put_falls hs.falls b
      obtain ⟨hnodup, hmem⟩ := foldl_queue (f.graph.preds b) todo htodo
      refine ⟨⟨hnodup, hfalls, fun c hc => ?_⟩, hbelow, ?_⟩
      · -- `c` is not a predecessor of `b`, so what is computed for it has not changed
        rw [hmem, Graph.mem_preds, not_or] at hc
        change f.entryUsesOf (entries.put b (f.entryUsesOf entries b)) c = _
        rw [entryUsesOf_put b c hc.2]
        by_cases hbc : b = c
        · rw [← hbc, Cells.get_put_self]
        · rw [Cells.get_put_of_ne _ hbc]
          exact hs.settled c (by simp [Ne.symm hbc, hc.1])
      · have hlt : weigh Uses.weight (entries.put b (f.entryUsesOf entries b)) < weigh Uses.weight entries := by
          refine weigh_lt (fun _ => weigh_rank_lt NextUse.rank_inj) hbelow fun heq => hne ?_
          rw [← heq, Cells.get_put_self, heq]
        have hlen : ((f.graph.preds b).foldl Scan.queue todo).length ≤ u.size := by
          simpa using hnodup.length_le_card
        have hmul := Nat.mul_le_mul_left u.size hlt
        simp only [scanWeight, List.length_cons, Nat.mul_succ] at hmul ⊢
        omega

/-- The bound of the scan is above the work that is there at the start. -/
theorem scanWeight_initial_lt (u : CompiledUnit) :
    scanWeight (.initial u.size) < u.size + u.size * (u.size * (16 * (maxDistance + 1))) + 1 := by
  have hw : weigh Uses.weight (Scan.initial u.size).entries ≤ u.size * (16 * (maxDistance + 1)) :=
    weigh_le fun b => weigh_le fun g => NextUse.rank_le _
  have := Nat.mul_le_mul_left u.size hw
  simp only [scanWeight, Scan.initial, List.length_reverse, List.length_finRange] at this ⊢
  omega

/-- **The scan ends, with uses that are fixed and justified.** -/
theorem IsFlow.entryUses_fixed (hf : u.IsFlow f) :
    (∀ b, f.entryUsesOf f.entryUses b = f.entryUses.get b) ∧ ∀ b, Justified u b (f.entryUses.get b) := by
  obtain ⟨entries, hloop, hfix, hok⟩ := loop_spec (I := ScanSound u f) (m := scanWeight)
    (P := fun entries => (∀ b, f.entryUsesOf entries b = entries.get b) ∧ ∀ b, Justified u b (entries.get b))
    (fun s s' hs hstep => ⟨(hf.scan_step hs hstep).1, (hf.scan_step hs hstep).2.2⟩)
    (fun s entries hs hstep => by
      obtain ⟨entries', todo⟩ := s
      cases todo with
      | nil =>
        simp only [Scan.step, Sum.inr.injEq] at hstep
        subst hstep
        exact ⟨fun b => hs.settled b (by simp), hs.falls.ok⟩
      | cons b todo =>
        simp only [Scan.step] at hstep
        split at hstep <;> cases hstep)
    _ _ (scanSound_initial u f) (scanWeight_initial_lt u)
  have heq : f.entryUses = entries := by
    simp only [Flow.entryUses, hloop, Option.getD_some]
  rw [heq]
  exact ⟨hfix, hok⟩

end CompiledUnit

/-! ## The table -/

namespace Uses

theorem fst_scan (exit : Uses) (code : List (List Access)) : (scan exit code).1 = code.foldr before exit := by
  induction code with
  | nil => rfl
  | cons i code ih => simp only [scan, List.foldr_cons, ih]

theorem length_snd_scan (exit : Uses) (code : List (List Access)) : (scan exit code).2.length = code.length := by
  induction code with
  | nil => rfl
  | cons i code ih => simp only [scan, List.length_cons, ih]

/-- The row of an instruction has the uses just before the next one. -/
theorem getElem?_snd_scan (exit : Uses) (code : List (List Access)) (k : Nat) (hk : k < code.length) :
    (scan exit code).2[k]? = some ((code.drop (k + 1)).foldr before exit) := by
  induction code generalizing k with
  | nil => cases hk
  | cons i code ih =>
    cases k with
    | zero => simp only [scan, List.getElem?_cons_zero, fst_scan, List.drop_succ_cons, List.drop_zero]
    | succ k =>
      simp only [scan, List.getElem?_cons_succ, List.drop_succ_cons]
      exact ih k (by simpa using hk)

end Uses

namespace Holds

theorem length_trace (s : Holds) (code : List (List Access)) : (s.trace code).length = code.length := by
  induction code generalizing s with
  | nil => rfl
  | cons i code ih => simp only [trace, List.length_cons, ih]

theorem getElem?_trace (s : Holds) (code : List (List Access)) (k : Nat) (hk : k < code.length) :
    (s.trace code)[k]? = some ((code.take (k + 1)).foldl after s) := by
  induction code generalizing s k with
  | nil => cases hk
  | cons i code ih =>
    cases k with
    | zero => rfl
    | succ k => exact ih (s.after i) k (by simpa using hk)

end Holds

/-- What may be held just after instruction `k` of block `b`. -/
def Flow.holdsAt {n : Nat} (f : Flow n) (b : Fin n) (k : Nat) : Holds :=
  ((f.code.get b).take (k + 1)).foldl Holds.after (f.entryHolds b f.exitHolds)

namespace CompiledUnit

variable {u : CompiledUnit} {f : Flow u.size} {g : Group}

/-- There is a row for each instruction. -/
theorem IsFlow.length_rows (hf : u.IsFlow f) : f.rows.length = u.insts.length := by
  have hcode : ∀ c, (f.code.get c).length = (u.blockAt c).length := fun c => by rw [hf.code, List.length_map]
  have huses : f.usesAfter.length = u.insts.length :=
    length_flatMap_blocks fun c => by rw [Uses.length_snd_scan, hcode]
  have hholds : f.holdsAfter.length = u.insts.length :=
    length_flatMap_blocks fun c => by rw [Holds.length_trace, hcode]
  rw [Flow.rows, List.length_zipWith, huses, hholds, Nat.min_self]

/-- The row of an instruction, by its place. -/
theorem IsFlow.getElem?_rows (hf : u.IsFlow f) {b : Fin u.size} {k : Nat} {inst : Inst} (hat : u.At b k inst) :
    f.rows[u.start b + k]? = some ⟨f.usesFrom f.entryUses b (k + 1), f.holdsAt b k⟩ := by
  have hcode : ∀ c, (f.code.get c).length = (u.blockAt c).length := fun c => by rw [hf.code, List.length_map]
  have hk : k < (f.code.get b).length := by rw [hcode]; exact hat.lt
  have huses : f.usesAfter[u.start b + k]? = some (f.usesFrom f.entryUses b (k + 1)) := by
    rw [Flow.usesAfter, getElem?_flatMap_start (fun c => by rw [Uses.length_snd_scan, hcode]) hat.lt]
    exact Uses.getElem?_snd_scan _ _ k hk
  have hholds : f.holdsAfter[u.start b + k]? = some (f.holdsAt b k) := by
    rw [Flow.holdsAfter, getElem?_flatMap_start (fun c => by rw [Holds.length_trace, hcode]) hat.lt]
    exact Holds.getElem?_trace _ _ k hk
  rw [Flow.rows, List.getElem?_zipWith, huses, hholds]

/-- A valid unit has a flow, and its table is made of the rows of the flow. -/
theorem exists_flow_of_valid (hv : u.validate = .ok ()) : u.Structured ∧
    ∃ f, u.flow = .ok f ∧ u.IsFlow f ∧ u.analyse = .ok ⟨u.edition, f.rows⟩ := by
  have hu := structured_of_valid hv
  obtain ⟨f, hflow, hf⟩ := hu.exists_flow
  refine ⟨hu, f, hflow, hf, ?_⟩
  rw [analyse, hv, scan, hflow]
  rfl

end CompiledUnit

/-- Bounds on a next use that fix it: it is not later than any of `S`, and it is one of them. -/
theorem NextUse.eq_least {S : Set Nat} {nu : NextUse} (hle : ∀ n ∈ S, nu.rank ≤ min n maxDistance)
    (hex : ∀ d, nu = .after d → ∃ n ∈ S, d.val = min n maxDistance) :
    (∀ d, nu.dist? = some d ↔ ∃ n, IsLeast S n ∧ d = min n maxDistance) ∧ (nu = .never ↔ ∀ n, n ∉ S) := by
  cases nu with
  | never =>
    have hempty : ∀ n, n ∉ S := by
      intro n hn
      have := hle n hn
      simp only [rank] at this
      omega
    refine ⟨fun d => ⟨fun h => (by cases h), ?_⟩, by simp [hempty]⟩
    rintro ⟨n, hn, _⟩
    exact absurd hn.1 (hempty n)
  | after d =>
    obtain ⟨n, hn, hd⟩ := hex d rfl
    obtain ⟨m, hm⟩ : ∃ m, IsLeast S m := by
      classical
      exact ⟨Nat.find ⟨n, hn⟩, Nat.find_spec (⟨n, hn⟩ : ∃ n, n ∈ S), fun l hl => Nat.find_min' _ hl⟩
    have hdm : d.val = min m maxDistance := by
      have h₁ := hle m hm.1
      have h₂ := hm.2 hn
      simp only [rank] at h₁
      omega
    refine ⟨fun d' => ?_, ⟨fun h => (by cases h), fun h => absurd hn (h n)⟩⟩
    simp only [dist?, Option.some.injEq]
    constructor
    · rintro rfl
      exact ⟨m, hm, hdm⟩
    · rintro ⟨m', hm', rfl⟩
      rw [hm'.unique hm]
      exact hdm

/-- A read by the `n`-th instruction from there does not come too early. -/
def NextUse.Allows : NextUse → Nat → Prop
  | after d, n => d.val ≤ n
  | never, _ => False

theorem NextUse.allows_of_rank_le {x : NextUse} {n : Nat} (h : x.rank ≤ min n maxDistance) : x.Allows n := by
  cases x with
  | after d => exact Nat.le_trans h (Nat.min_le_left ..)
  | never =>
    have : maxDistance + 1 ≤ maxDistance := Nat.le_trans h (Nat.min_le_right ..)
    exact absurd this (Nat.not_succ_le_self _)

namespace CompiledUnit

variable {u : CompiledUnit} {f : Flow u.size} {g : Group}

/-- No use path from an instruction is shorter than what its row says. -/
theorem IsFlow.rank_row_le (hf : u.IsFlow f) (hu : u.Structured) {b : Fin u.size} {k n : Nat} {inst : Inst}
    (hat : u.At b k inst) (h : u.UsedAt g (u.start b + k) n) :
    ((f.usesFrom f.entryUses b (k + 1)).get g).rank ≤ min n maxDistance :=
  hf.rank_usesFrom_le hu hf.entryUses_fixed.1 ((usedAt_iff_useIn hat).mp h) b.isLt

/-- **What the table of a valid unit says of an instruction allows every use path from there.** -/
theorem exists_nextUse_allows {t : NextUseTable} (hv : u.validate = .ok ()) (ht : u.analyse = .ok t) {b k : Nat}
    {inst : Inst} (hat : u.At b k inst) (g : Group) : ∃ nu, t.nextUse (u.start b + k) g = .ok nu ∧
      ∀ n, u.UsedAt g (u.start b + k) n → nu.Allows n := by
  obtain ⟨hu, f, -, hf, htable⟩ := exists_flow_of_valid hv
  cases htable.symm.trans ht
  have hrow := hf.getElem?_rows (b := ⟨b, hat.block_lt⟩) hat
  refine ⟨(f.usesFrom f.entryUses ⟨b, hat.block_lt⟩ (k + 1)).get g, ?_, fun n hn => ?_⟩
  · simp only [NextUseTable.nextUse, g.isLt, hrow, dif_pos]
  · exact NextUse.allows_of_rank_le (hf.rank_row_le hu (b := ⟨b, hat.block_lt⟩) hat hn)

/-- **The next uses of a valid unit are the lengths of shortest use paths**, cut off at the largest distance, and
`never` where there is no use path. -/
theorem analyse_nextUse_exact (u : CompiledUnit) (hv : u.validate = .ok ()) : ∃ t, u.analyse = .ok t ∧
    ∀ i < u.insts.length, ∀ g : Group, ∃ nu, t.nextUse i g = .ok nu ∧
      (∀ d, nu.dist? = some d ↔ ∃ n, IsLeast {n | u.UsedAt g i n} n ∧ d = min n maxDistance) ∧
      (nu = .never ↔ ∀ n, ¬ u.UsedAt g i n) := by
  obtain ⟨hu, f, _, hf, htable⟩ := exists_flow_of_valid hv
  refine ⟨_, htable, fun i hi g => ?_⟩
  obtain ⟨b, k, inst, rfl, hat⟩ := exists_at hi
  have hrow := hf.getElem?_rows (b := ⟨b, hat.block_lt⟩) hat
  refine ⟨(f.usesFrom f.entryUses ⟨b, hat.block_lt⟩ (k + 1)).get g, ?_, ?_⟩
  · simp only [NextUseTable.nextUse, g.isLt, hrow, dif_pos]
  · refine NextUse.eq_least (S := {n | u.UsedAt g (u.start b + k) n}) (fun n hn => ?_) fun d hd => ?_
    · exact hf.rank_row_le hu (b := ⟨b, hat.block_lt⟩) hat hn
    · obtain ⟨n, huse, hn⟩ := hf.exists_useIn_of_usesFrom hf.entryUses_fixed.2 hd
      exact ⟨n, (usedAt_iff_useIn hat).mpr huse, hn⟩

/-- A loop with an empty block on its way back. It counts a register down through a narrow view, and drops another
behind the loop. -/
def countdown : CompiledUnit where
  name := "countdown"
  edition := .e0
  blocks := [
    [.const (.gp 0 .w64) 3, .const (.gp 1 .w64) 1, .const (.gp 2 .w8) 7],
    [.binOp .sub (.gp 0 .w64) (.gp 0 .w64) (.gp 1 .w64), .condbr (.gp 0 .w8) 2 4],
    [],
    [.br 1],
    [.drop (.gp 1 .w64), .blackbox (.gp 2 .w8), .spAdd (-16), .ret (some (.gp 0 .w64))]]
  blocks_ne_nil := by decide

/-- In the loop, the uses of `r0`, `r1` and `r2` behind it are shortest use paths. -/
theorem countdown_nextUse_exact : countdown.validate = .ok () ∧ ∃ t, countdown.analyse = .ok t ∧
    ∀ i < countdown.insts.length, ∀ g : Group, ∃ nu, t.nextUse i g = .ok nu ∧
      (∀ d, nu.dist? = some d ↔ ∃ n, IsLeast {n | countdown.UsedAt g i n} n ∧ d = min n maxDistance) ∧
      (nu = .never ↔ ∀ n, ¬ countdown.UsedAt g i n) :=
  ⟨by decide +kernel, analyse_nextUse_exact countdown (by decide +kernel)⟩

end CompiledUnit

end ChillHints
