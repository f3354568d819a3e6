import ChillHints.Proofs.Direct
import ChillHints.Proofs.NextUse

/-!
# What is undefined is never seen

A write through a narrow view leaves the upper bits of its place undefined, and so is a place to which nothing was
ever written, or whose value was dropped. `Noisy` is the store with a place for every group in which all this is
noise: what is found there is chosen from outside, anew for every change (`Noise`).

The plain store and the noisy one agree in what has been written on the path of the run (`Vouched`): where the last
write has `w` bits, both have a value, and the low `w` bits are the same. A read of at most `w` bits gives the same
in both (`readFollows`), and in a valid unit there are no other reads. So a valid unit runs on the noisy store as it
does on the plain one (`runNoisy_eq_runDirect`).
-/

namespace ChillHints

/-! ## Low bits -/

theorem toNat_lowBits (bits : Nat) (v : UInt64) : (lowBits bits v).toNat = v.toNat % 2 ^ bits := by
  unfold lowBits
  split
  · rename_i h
    exact (Nat.mod_eq_of_lt (Nat.lt_of_lt_of_le v.toNat_lt (Nat.pow_le_pow_right (by decide) h))).symm
  · rename_i h
    have hbits : bits < 64 := Nat.lt_of_not_le h
    have hpow : 2 ^ bits < 2 ^ 64 := Nat.pow_lt_pow_right (by decide) hbits
    have hone : ((1 : UInt64) <<< UInt64.ofNat bits).toNat = 2 ^ bits := by
      rw [UInt64.toNat_shiftLeft, UInt64.toNat_ofNat_of_lt' (Nat.lt_trans hbits (by decide)), Nat.mod_eq_of_lt hbits,
        UInt64.toNat_one, Nat.shiftLeft_eq, Nat.one_mul, Nat.mod_eq_of_lt hpow]
    have hle : (1 : UInt64) ≤ 1 <<< UInt64.ofNat bits := by
      rw [UInt64.le_iff_toNat_le, hone]
      exact Nat.one_le_two_pow
    rw [UInt64.toNat_and, UInt64.toNat_sub_of_le _ _ hle, hone]
    exact Nat.and_two_pow_sub_one_eq_mod _ _

theorem lowBits_lowBits {n bits : Nat} (h : n ≤ bits) (v : UInt64) : lowBits n (lowBits bits v) = lowBits n v := by
  rw [← UInt64.toNat_inj, toNat_lowBits, toNat_lowBits, toNat_lowBits]
  exact Nat.mod_mod_of_dvd _ (Nat.pow_dvd_pow 2 h)

/-- The low `bits` bits of one value, and above them those of another. -/
def splice (bits : Nat) (low high : UInt64) : UInt64 := lowBits bits low ||| (high ^^^ lowBits bits high)

theorem lowBits_splice (bits : Nat) (low high : UInt64) : lowBits bits (splice bits low high) = lowBits bits low := by
  rw [← UInt64.toNat_inj, toNat_lowBits, splice, UInt64.toNat_or, UInt64.toNat_xor, Nat.or_mod_two_pow,
    Nat.xor_mod_two_pow]
  simp only [toNat_lowBits, Nat.mod_mod, Nat.xor_self, Nat.or_zero]

/-! ## The noisy store -/

/-- What is found where nothing is defined. The changes of the store are numbered from 0. -/
structure Noise where
  /-- In a place to which nothing has been written. -/
  unwritten : Group → Option UInt64
  /-- In the upper bits, after the change with this number has written fewer than 64 bits. -/
  upper : Nat → UInt64
  /-- In a place whose value was dropped by the change with this number. -/
  dropped : Nat → Option UInt64

/-- A place for every group, with noise where nothing is defined. -/
structure Noisy where
  noise : Noise
  values : Cells 16 (Option UInt64)
  /-- How many changes there have been. -/
  changes : Nat

namespace Noisy

def new (noise : Noise) : Noisy := ⟨noise, .tabulate noise.unwritten, 0⟩

def write (g : Group) (bits : Nat) (v : UInt64) (s : Noisy) : Noisy :=
  { s with values := s.values.put g (some (splice bits v (s.noise.upper s.changes))), changes := s.changes + 1 }

def discard (g : Group) (s : Noisy) : Noisy :=
  { s with values := s.values.put g (s.noise.dropped s.changes), changes := s.changes + 1 }

instance : RegisterStore Noisy where
  read _ g s :=
    match s.values.get g with
    | some v => .ok (v, s)
    | none => .error .absentValue
  write := write
  discard := discard
  afterInst _ _ s := .ok s

end Noisy

/-- The events of a run in which all that is undefined is noise. -/
def CompiledUnit.runNoisy (u : CompiledUnit) (noise : Noise) : Except Fault (List Event) :=
  (Run.ofUnit u (Noisy.new noise)).result.map fun (events, _) => events

namespace Noisy

/-- Both stores have a value for each group of which `W` has bits written, and agree in these. -/
def Vouched (W : Group → Option Nat) (s : Direct) (t : Noisy) : Prop :=
  ∀ g, g ≠ Group.sp → ∀ w, W g = some w →
    ∃ v v', s.values.get g = some v ∧ t.values.get g = some v' ∧ lowBits w v' = lowBits w v

variable {W : Group → Option Nat} {e : Edition} {g : Group}

/-- A read of no more than what is written. -/
theorem readFollows {step w bits : Nat} (hg : g ≠ Group.sp) (hw : W g = some w) (hbits : bits ≤ w) :
    Exec.ReadFollows (Vouched W) step g bits := by
  intro s t v s' h hs
  obtain ⟨hval, rfl⟩ := Direct.read_eq_ok.1 hs
  obtain ⟨v₁, v', hv, hv', hlow⟩ := h g hg w hw
  cases hv.symm.trans hval
  refine ⟨v', t, by simp only [RegisterStore.read, hv'], ?_, h⟩
  rw [← lowBits_lowBits hbits v', hlow, lowBits_lowBits hbits]

/-- How much is written after a change, where `W` is written before it. -/
def after (e : Edition) (c : Change) (W : Group → Option Nat) (g : Group) : Option Nat :=
  ((c.operands.filter (·.ends g)).getLast?.map (·.brings e)).getD (W g)

theorem after_single {c : Change} {op : Operand} {x : Group} (hc : c.operands = [op]) (hrole : op.role ≠ .read)
    (hx : op.reg.group? = some x) (W : Group → Option Nat) (g : Group) :
    after e c W g = if x = g then op.brings e else W g := by
  by_cases h : x = g <;> simp [after, hc, Operand.ends, hrole, hx, h]

/-- A change made to both stores: it writes the same bits to both, and vouches for nothing else. -/
theorem changeFollows {c : Change} {s s' : Direct} {t : Noisy} (h : Vouched W s t) (hs : c.apply e s = .ok s') :
    ∃ t', c.apply e t = .ok t' ∧ Vouched (after e c W) s' t' := by
  cases c with
  | keep =>
    cases hs
    exact ⟨t, rfl, h⟩
  | assign r v =>
    obtain ⟨x, hx, rfl⟩ := map_eq_ok.1 hs
    refine ⟨_, map_eq_ok.2 ⟨x, hx, rfl⟩, fun g hg w hw => ?_⟩
    rw [after_single rfl (by simp) (Reg.group_eq_ok.1 hx)] at hw
    simp only [RegisterStore.write, write, Cells.get_put]
    split at hw
    · cases hw
      simp only [*, if_true]
      exact ⟨_, _, rfl, rfl, lowBits_splice ..⟩
    · simp only [*, if_false]
      exact h g hg w hw
  | discard r =>
    obtain ⟨x, hx, rfl⟩ := map_eq_ok.1 hs
    refine ⟨_, map_eq_ok.2 ⟨x, hx, rfl⟩, fun g hg w hw => ?_⟩
    rw [after_single rfl (by simp) (Reg.group_eq_ok.1 hx)] at hw
    simp only [RegisterStore.discard, discard, Cells.get_put]
    split at hw
    · cases hw
    · simp only [*, if_false]
      exact h g hg w hw

end Noisy

/-! ## Runs -/

namespace CompiledUnit

variable {u : CompiledUnit} {s : MachineState Direct} {t : MachineState Noisy} {b k : Nat}

/-- The two machines agree in what some path to just before instruction `k` of block `b` has written. -/
def Backed (u : CompiledUnit) (s : MachineState Direct) (t : MachineState Noisy) (b k : Nat) : Prop :=
  ∃ h, u.Arrives b h ∧ s.Agree (Noisy.Vouched fun g => written u.edition g none (h ++ (u.blockAt b).take k)) t

theorem edgewise_backed (s : MachineState Direct) (t : MachineState Noisy) : u.Edgewise (u.Backed s t) := by
  rintro b k d hk hd ⟨h, harrives, hagree⟩
  refine ⟨h ++ u.blockAt b, .edge harrives hd, ?_⟩
  simpa only [List.take_of_length_le hk, List.take_zero, List.append_nil] using hagree

/-- An instruction of a valid unit does the same on both stores. -/
theorem Backed.perform (hv : u.validate = .ok ()) {step : Nat} {c : Cursor} (hc : c.Stands u k) {next : Next}
    {s' : MachineState Direct} (h : u.Backed s t c.block k)
    (hs : Run.perform u.edition step c s = .ok (next, s')) :
    ∃ t', Run.perform u.edition step c t = .ok (next, t') ∧ u.Backed s' t' c.block (k + 1) := by
  obtain ⟨h, harrives, hagree⟩ := h
  let W (k : Nat) (g : Group) : Option Nat := written u.edition g none (h ++ (u.blockAt c.block).take k)
  have hreads : ∀ r ∈ c.inst.reads, ∀ g, r.group? = some g → g ≠ Group.sp →
      Exec.ReadFollows (Noisy.Vouched (W k)) step g (u.edition.bits r.width) := by
    intro r hr g hg hsp
    obtain ⟨w, hw, hbits⟩ := harrives.written_of_read hv hc.at_inst hr hg hsp
    exact Noisy.readFollows hsp hw hbits
  have hchange : ∀ vs sp mem s t s', Noisy.Vouched (W k) s t →
      (c.inst.outcome vs sp mem).change.apply u.edition s = .ok s' →
        ∃ t', (c.inst.outcome vs sp mem).change.apply u.edition t = .ok t' ∧ Noisy.Vouched (W (k + 1)) s' t' := by
    intro vs sp mem s t s' hst hs
    obtain ⟨t', ht', hafter⟩ := Noisy.changeFollows hst hs
    refine ⟨t', ht', fun g hg w hw => hafter g hg w ?_⟩
    exact (written_take_succ hc.at_inst vs sp mem hg).symm.trans hw
  obtain ⟨t', ht', hagree'⟩ := Run.perform_follows hreads hchange
    (fun s t s' hst hs => ⟨t, rfl, (Except.ok.inj hs) ▸ hst⟩) hagree hs
  exact ⟨t', ht', h, harrives, hagree'⟩

/-- **What is undefined is never seen.** A valid unit runs to its end whatever is found in the upper bits that narrow
writes leave undefined, in places to which nothing was written and in those whose value was dropped, and the same is
seen of the run. -/
theorem runNoisy_eq_runDirect (u : CompiledUnit) (hv : u.validate = .ok ()) (noise : Noise) :
    ∃ events, u.runDirect = .ok events ∧ u.runNoisy noise = .ok events := by
  obtain ⟨ending, s, hs⟩ := ofUnit_direct_ok hv
  have hstart : u.Backed ⟨Direct.empty, initialSp, [], []⟩ ⟨Noisy.new noise, initialSp, [], []⟩ 0 0 :=
    ⟨[], .entry, fun g _ w hw => (by cases hw), rfl, rfl, rfl⟩
  obtain ⟨-, t, ht, _, _, _, _, _, -, hagree⟩ := Run.go_follows (I := fun _ _ => u.Backed) (structured_of_valid hv)
    (fun _ _ => edgewise_backed) (fun _ _ _ _ _ _ _ _ hc h hs => h.perform hv hc hs)
    (here_enter (edgewise_backed _ _) ⟨0, 0, hstart⟩ fun _ => hstart) hs
  refine ⟨s.events, ?_, ?_⟩
  · simp only [runDirect, Run.result, hs, Except.map]
  · rw [runNoisy, Run.result, show (Run.ofUnit u (Noisy.new noise)).outcome = _ from ht, hagree.events]
    rfl

/-- The loop reads `r2` only as far as it was written, and does not miss `r1` when it is dropped. -/
theorem countdown_runNoisy : countdown.validate = .ok () ∧ ∃ events, countdown.runDirect = .ok events ∧
    countdown.runNoisy ⟨fun _ => some 5, fun n => UInt64.ofNat n - 1, fun _ => none⟩ = .ok events :=
  ⟨by decide +kernel, runNoisy_eq_runDirect countdown (by decide +kernel) _⟩

end CompiledUnit

end ChillHints
