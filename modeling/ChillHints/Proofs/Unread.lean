import ChillHints.Proofs.Direct
import ChillHints.Proofs.NextUse
import ChillHints.Proofs.Point

/-!
# A value that is not read does not matter

Two runs of a valid unit on the store with a place for every group go the same way as long as the only place in which
they differ is not read (`Spared`). Which steps that are, the use paths from there tell: each instruction brings the
runs one step nearer to a use, or ends the value, after which they do not differ at all (`Alike.perform`).

So at every point of a run, other contents of a group make no difference before the next use that the table has for
that group (`nextUse_spares`).
-/

namespace ChillHints

namespace Direct

variable {e : Edition} {step : Nat} {g x : Group} {Q Q' : Prop} {s s' t : Direct} {c : Change}

/-- The stores differ in the place of `g` at most. -/
def SameBut (g : Group) (s t : Direct) : Prop := ∀ x, x ≠ g → s.values.get x = t.values.get x

/-- The stores differ in the place of `g` at most, and then `Q` is the case. -/
def Spared (g : Group) (Q : Prop) (s t : Direct) : Prop := SameBut g s t ∧ (s.values.get g = t.values.get g ∨ Q)

/-- A read does not notice the difference, unless it is of `g` itself. -/
theorem spared_readFollows (bits : Nat) (h : x = g → ¬ Q) : Exec.ReadFollows (Spared g Q) step x bits := by
  rintro s t v s' ⟨hsame, hg⟩ hs
  obtain ⟨hval, rfl⟩ := read_eq_ok.1 hs
  have heq : s'.values.get x = t.values.get x := by
    by_cases hx : x = g
    · subst hx
      exact hg.resolve_right (h rfl)
    · exact hsame x hx
  exact ⟨v, t, read_eq_ok.2 ⟨heq.symm.trans hval, rfl⟩, rfl, hsame, hg⟩

/-- A change is the same in both stores where it takes place, and leaves alone what it does not end. -/
theorem apply_both (t : Direct) (hs : c.apply e s = .ok s') : ∃ t', c.apply e t = .ok t' ∧
    ∀ x, s'.values.get x = t'.values.get x ∨ c.operands.filter (·.ends x) = [] ∧
      s'.values.get x = s.values.get x ∧ t'.values.get x = t.values.get x := by
  cases c with
  | keep =>
    cases hs
    exact ⟨t, rfl, fun x => Or.inr ⟨rfl, rfl, rfl⟩⟩
  | assign r v =>
    obtain ⟨y, hy, rfl⟩ := map_eq_ok.1 hs
    refine ⟨_, map_eq_ok.2 ⟨y, hy, rfl⟩, fun x => ?_⟩
    by_cases hyx : y = x
    · simp [RegisterStore.write, hyx]
    · simp [RegisterStore.write, Cells.get_put, Change.operands, Operand.ends, Reg.group_eq_ok.1 hy, hyx]
  | discard r =>
    obtain ⟨y, hy, rfl⟩ := map_eq_ok.1 hs
    refine ⟨_, map_eq_ok.2 ⟨y, hy, rfl⟩, fun x => ?_⟩
    by_cases hyx : y = x
    · simp [RegisterStore.discard, hyx]
    · simp [RegisterStore.discard, Cells.get_put, Change.operands, Operand.ends, Reg.group_eq_ok.1 hy, hyx]

/-- A change keeps the stores the same, or makes them so. -/
theorem spared_changeFollows (hQ : c.operands.filter (·.ends g) = [] → Q → Q') (h : Spared g Q s t)
    (hs : c.apply e s = .ok s') : ∃ t', c.apply e t = .ok t' ∧ Spared g Q' s' t' := by
  obtain ⟨hsame, hg⟩ := h
  obtain ⟨t', ht', hboth⟩ := apply_both t hs
  refine ⟨t', ht', fun x hx => ?_, ?_⟩
  · rcases hboth x with heq | ⟨-, hs', ht'⟩
    · exact heq
    · rw [hs', ht', hsame x hx]
  · rcases hboth g with heq | ⟨hends, hs', ht'⟩
    · exact Or.inl heq
    · rw [hs', ht']
      exact hg.imp_right (hQ hends)

end Direct

/-! ## Runs -/

namespace CompiledUnit

variable {u : CompiledUnit} {g : Group} {fuel step k : Nat} {s t s' : MachineState Direct}

/-- Just before instruction `k` of block `b`, the machines differ in the contents of `g` at most, and if they do, these
cannot be read within the next `fuel` steps. -/
def Alike (u : CompiledUnit) (g : Group) (fuel : Nat) (s t : MachineState Direct) (b k : Nat) : Prop :=
  s.Agree (Direct.Spared g (∀ n, u.UseIn g b k n → fuel < n)) t

theorem edgewise_alike (fuel : Nat) (s t : MachineState Direct) : u.Edgewise (u.Alike g fuel s t) := by
  rintro b k d hk hd ⟨⟨hsame, hg⟩, hsp, hmem, hevents⟩
  exact ⟨⟨hsame, hg.imp_right fun h n hn => h n (.edge hk hd hn)⟩, hsp, hmem, hevents⟩

/-- An instruction does the same on both machines, and uses up one step. -/
theorem Alike.perform (hg : g ≠ Group.sp) {c : Cursor} (hc : c.Stands u k) {next : Next}
    (h : u.Alike g (fuel + 1) s t c.block k) (hs : Run.perform u.edition step c s = .ok (next, s')) :
    ∃ t', Run.perform u.edition step c t = .ok (next, t') ∧ u.Alike g fuel s' t' c.block (k + 1) := by
  refine Run.perform_follows (fun r hr x hx _ => Direct.spared_readFollows _ ?_)
    (fun vs sp mem s t s' hst hs => Direct.spared_changeFollows ?_ hst hs)
    (fun s t s' hst hs => ⟨t, rfl, (Except.ok.inj hs) ▸ hst⟩) h hs
  · -- a read of `g` itself is a use by the very next instruction
    rintro rfl hspared
    have := hspared 1 (.read hc.at_inst ⟨r, hr, hx⟩)
    omega
  · intro hends hspared n hn
    have hnot : ¬ c.inst.Ends g := by
      rw [Inst.ends_iff, c.inst.ends_outcome vs sp mem hg, hends]
      exact fun hne => hne rfl
    have := hspared (n + 1) (.skip hc.at_inst hnot hn)
    omega

end CompiledUnit

/-- Both runs go to an end, and do the same on the way: they execute the same instructions, end in the same way, and
differ at the end in the contents of `g` at most. -/
structure Run.AlikeBut (g : Group) (r r' : Run Direct) : Prop where
  trail_eq : r'.trail = r.trail
  outcome : ∃ ending s s', r.outcome = .ok (ending, s) ∧ r'.outcome = .ok (ending, s') ∧ s.Agree (Direct.SameBut g) s'

/-- The point with other contents of `g`. -/
def Point.put (p : Point Direct) (g : Group) (x : Option UInt64) : Point Direct :=
  { p with state := { p.state with regs := ⟨p.state.regs.values.put g x⟩ } }

namespace CompiledUnit

variable {u : CompiledUnit} {g : Group} {p : Point Direct}

/-- At a point of the run of a valid unit there is a value just where the path has written one. -/
theorem Passes.filled (hv : u.validate = .ok ()) (hp : u.Passes Direct.empty p) :
    ∃ k, p.cursor.Stands u k ∧ p.cursor.inst.Goes p.next ∧ u.Filled p.state p.cursor.block (k + 1) := by
  refine hp.stands (structured_of_valid hv) edgewise_filled (fun step c k s next s' hc h hs => ?_) filled_start
  obtain ⟨next', s'', hs'', h'⟩ := h.perform hv step hc
  cases hs''.symm.trans hs
  exact h'

/-- **Other contents of a group make no difference before the group can be used.** -/
theorem Passes.rest_alikeBut (hv : u.validate = .ok ()) (hp : u.Passes Direct.empty p) (hg : g ≠ Group.sp)
    (x : Option UInt64) {fuel : Nat} (hunused : ∀ n, u.UsedAt g p.cursor.iidx n → fuel < n) :
    (p.rest u fuel).AlikeBut g ((p.put g x).rest u fuel) := by
  have hu := structured_of_valid hv
  obtain ⟨k, hc, hgo, hfilled⟩ := hp.filled hv
  have hsame : p.state.Agree (Direct.SameBut g) (p.put g x).state :=
    ⟨fun y hy => (Cells.get_put_of_ne _ (Ne.symm hy) _).symm, rfl, rfl, rfl⟩
  by_cases hstop : p.next = .stop
  · rw [Point.rest_of_stop hstop, Point.rest_of_stop (p := p.put g x) hstop]
    exact ⟨rfl, _, _, _, rfl, rfl, hsame⟩
  · have halike : u.Alike g fuel p.state (p.put g x).state p.cursor.block (k + 1) := by
      refine ⟨⟨hsame.regs, Or.inr fun n hn => hunused n ?_⟩, rfl, rfl, rfl⟩
      rw [hc.iidx_eq]
      exact (usedAt_iff_useIn hc.at_inst).mpr hn
    rw [Point.rest_of_ne_stop hstop, Point.rest_of_ne_stop (p := p.put g x) hstop]
    obtain ⟨ending, s, hs⟩ := Run.go_ok hu edgewise_filled (fun step c k s hc h => h.perform hv step hc)
      (hc.onward hu (edgewise_filled _) hgo hfilled)
    obtain ⟨htrail, s', hs', _, _, _, _, hagree⟩ := Run.go_follows (I := fun fuel _ => u.Alike g fuel) hu
      (fun fuel _ => edgewise_alike fuel) (fun _ _ _ _ _ _ _ _ hc h hs => h.perform hg hc hs)
      (hc.onward hu (edgewise_alike _ _ _) hgo halike) hs
    exact ⟨htrail, ending, s, s', hs, hs', hagree.regs.1, hagree.sp, hagree.mem, hagree.events⟩

/-- **The table of next uses is sound for runs.** At every point of the direct run of a valid unit, just after some
instruction, put anything into the place of a general purpose group. If the table has the group never used again, the
run goes on as before, for however many steps. If it has the group used after `d`, the run goes on as before for fewer
than `d` steps. -/
theorem nextUse_spares (u : CompiledUnit) (hv : u.validate = .ok ()) : ∃ t, u.analyse = .ok t ∧
    ∀ p, u.Passes Direct.empty p → ∀ g : Group, g ≠ Group.sp → ∃ nu, t.nextUse p.cursor.iidx g = .ok nu ∧
      (nu = .never → ∀ x fuel, (p.rest u fuel).AlikeBut g ((p.put g x).rest u fuel)) ∧
      ∀ d, nu = .after d → ∀ x, ∀ fuel < d.val, (p.rest u fuel).AlikeBut g ((p.put g x).rest u fuel) := by
  obtain ⟨-, f, -, -, ht⟩ := exists_flow_of_valid hv
  refine ⟨_, ht, fun p hp g hg => ?_⟩
  obtain ⟨k, hc⟩ := hp.sits
  obtain ⟨nu, hnu, hallows⟩ := exists_nextUse_allows hv ht hc.at_inst g
  rw [← hc.iidx_eq] at hnu hallows
  refine ⟨nu, hnu, ?_, ?_⟩
  · rintro rfl x fuel
    exact hp.rest_alikeBut hv hg x fun n hn => absurd (hallows n hn) id
  · rintro d rfl x fuel hfuel
    exact hp.rest_alikeBut hv hg x fun n hn => Nat.lt_of_lt_of_le hfuel (hallows n hn)

/-- In the loop, what is put into `r2` does not matter before it is read behind the loop, nor afterwards. It is written in
the third step and not read in the next three; and it is never read again once it has been, in the thirteenth. -/
theorem countdown_nextUse_spares : countdown.validate = .ok () ∧ ∃ t, countdown.analyse = .ok t ∧
    (∀ p, countdown.Passes Direct.empty p → ∀ g : Group, g ≠ Group.sp → ∃ nu, t.nextUse p.cursor.iidx g = .ok nu ∧
      (nu = .never → ∀ x fuel, (p.rest countdown fuel).AlikeBut g ((p.put g x).rest countdown fuel)) ∧
      ∀ d, nu = .after d → ∀ x, ∀ fuel < d.val,
        (p.rest countdown fuel).AlikeBut g ((p.put g x).rest countdown fuel)) ∧
    (∃ p d, countdown.Passes Direct.empty p ∧ p.step = 3 ∧ p.cursor.iidx = 2 ∧ t.nextUse 2 2 = .ok (.after d) ∧
      d.val = 4 ∧ ∀ x, ∀ fuel < 4, (p.rest countdown fuel).AlikeBut 2 ((p.put 2 x).rest countdown fuel)) ∧
    ∃ p, countdown.Passes Direct.empty p ∧ p.step = 13 ∧ p.cursor.iidx = 7 ∧ t.nextUse 7 2 = .ok .never ∧
      ∀ x fuel, (p.rest countdown fuel).AlikeBut 2 ((p.put 2 x).rest countdown fuel) := by
  have hv : countdown.validate = .ok () := by decide +kernel
  obtain ⟨t, ht, hall⟩ := nextUse_spares countdown hv
  obtain ⟨ending, s, hok⟩ := ofUnit_direct_ok hv
  have hsp : (2 : Group) ≠ Group.sp := by decide
  -- what the table says about `r2` behind the instructions that the two steps execute
  have hnear : (countdown.analyse.toOption.bind fun t => (t.nextUse 2 2).toOption.bind NextUse.dist?) = some 4 := by
    decide +kernel
  have hgone : (countdown.analyse.toOption.map fun t => t.nextUse 7 2) = some (.ok .never) := by decide +kernel
  rw [ht] at hnear hgone
  refine ⟨hv, t, ht, hall, ?_, ?_⟩
  · have hthird : (Run.ofUnit countdown Direct.empty).trail[2]? = some ⟨0, 2⟩ := by decide +kernel
    obtain ⟨p, hp, hstep, hsite⟩ := exists_passes hok hthird
    have hiidx : p.cursor.iidx = 2 := congrArg Site.iidx hsite
    obtain ⟨nu, hnu, -, hspares⟩ := hall p hp 2 hsp
    rw [hiidx] at hnu
    change (t.nextUse 2 2).toOption.bind NextUse.dist? = some 4 at hnear
    rw [show t.nextUse 2 2 = .ok nu from hnu] at hnear
    cases nu with
    | never => cases hnear
    | after d =>
      have hd : d.val = 4 := Option.some.inj hnear
      exact ⟨p, d, hp, hstep, hiidx, hnu, hd, hd ▸ hspares d rfl⟩
  · have hlast : (Run.ofUnit countdown Direct.empty).trail[12]? = some ⟨4, 7⟩ := by decide +kernel
    obtain ⟨p, hp, hstep, hsite⟩ := exists_passes hok hlast
    have hiidx : p.cursor.iidx = 7 := congrArg Site.iidx hsite
    obtain ⟨nu, hnu, hspares, -⟩ := hall p hp 2 hsp
    rw [hiidx] at hnu
    have hnever := Option.some.inj hgone
    cases hnu.symm.trans hnever
    exact ⟨p, hp, hstep, hiidx, hnever, hspares rfl⟩

end CompiledUnit

end ChillHints
