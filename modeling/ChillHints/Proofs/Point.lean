import ChillHints.Proofs.Control

/-!
# Points of a run

A point of a run is just after an executed instruction (`Point`). What the run does from there on is again a run
(`Point.rest`): it executes nothing more, or one more instruction, after which it is at the next point
(`rest_of_succ`, `exists_succ`).

`u.Passes regs p` says that the run of `u` from the store `regs` comes to the point `p`. The point splits the run into
what was executed up to there and the rest (`Passes.split`), and whatever a run that does not break off has executed
was executed at one of its points (`exists_passes`).

At a point the cursor is at an instruction of the unit (`Passes.sits`). In a structured unit, what holds by place and
is kept by every instruction holds at every point (`Passes.stands`), and wherever the run goes on from there
(`Stands.onward`).
-/

namespace ChillHints

/-- A run just after an instruction. -/
structure Point (σ : Type) where
  /-- How many instructions have been executed, this one included. -/
  step : Nat
  /-- The instruction. -/
  cursor : Cursor
  /-- Where it sends control. -/
  next : Next
  state : MachineState σ

/-- Where control goes on behind the instruction at `c`. -/
def CompiledUnit.onward (u : CompiledUnit) (c : Cursor) : Next → Option Cursor
  | .fall => u.advance c c.next
  | .jump target => u.advance c target.toNat
  | .stop => none

/-- A run with one more instruction before it. -/
def Run.cons {σ : Type} (site : Site) (r : Run σ) : Run σ := ⟨site :: r.trail, r.outcome⟩

/-! ## From point to point -/

namespace Point

variable {σ : Type} [RegisterStore σ] {u : CompiledUnit} {p q : Point σ} {fuel : Nat}

/-- What is left of the run, when it goes on for at most `fuel` steps. -/
def rest (u : CompiledUnit) (fuel : Nat) (p : Point σ) : Run σ :=
  match p.next with
  | .stop => ⟨[], .ok (.returned, p.state)⟩
  | next => Run.go u fuel (p.step + 1) (u.onward p.cursor next) p.state

/-- Behind the point `p` one more instruction is executed, and the run is at the point `q`. -/
structure Succ (u : CompiledUnit) (p q : Point σ) : Prop where
  step_eq : q.step = p.step + 1
  cursor_eq : u.onward p.cursor p.next = some q.cursor
  perform_eq : Run.perform u.edition q.step q.cursor p.state = .ok (q.next, q.state)

theorem rest_of_stop (h : p.next = .stop) : p.rest u fuel = ⟨[], .ok (.returned, p.state)⟩ := by
  simp only [rest, h]

theorem rest_of_ne_stop (h : p.next ≠ .stop) :
    p.rest u fuel = Run.go u fuel (p.step + 1) (u.onward p.cursor p.next) p.state := by
  unfold rest
  split
  · rename_i hstop
    exact absurd hstop h
  · rfl

/-- Executing an instruction, and then the rest. -/
theorem go_of_perform {s : MachineState σ} (h : Run.perform u.edition p.step p.cursor s = .ok (p.next, p.state)) :
    Run.go u (fuel + 1) p.step (some p.cursor) s = (p.rest u fuel).cons p.cursor.site := by
  obtain ⟨step, c, next, s'⟩ := p
  rw [Run.go, h]
  cases next <;> rfl

/-- A run that executes something, and does not break off at once, comes to a point. -/
theorem exists_of_go {step : Nat} {cur : Option Cursor} {s : MachineState σ} {site : Site}
    {r : Ending × MachineState σ} (hsite : (Run.go u fuel step cur s).trail[0]? = some site)
    (hok : (Run.go u fuel step cur s).outcome = .ok r) : ∃ fuel', ∃ q : Point σ, fuel = fuel' + 1 ∧ q.step = step ∧
      cur = some q.cursor ∧ q.cursor.site = site ∧ Run.perform u.edition step q.cursor s = .ok (q.next, q.state) := by
  cases fuel with
  | zero => cases cur <;> cases hsite
  | succ fuel =>
    cases cur with
    | none => cases hsite
    | some c =>
      cases hperform : Run.perform u.edition step c s with
      | error f => rw [Run.go, hperform] at hok; cases hok
      | ok x =>
        obtain ⟨next, s'⟩ := x
        rw [go_of_perform (p := ⟨step, c, next, s'⟩) hperform] at hsite
        exact ⟨fuel, ⟨step, c, next, s'⟩, rfl, rfl, rfl, Option.some.inj hsite, hperform⟩

theorem rest_of_succ (h : p.Succ u q) : p.rest u (fuel + 1) = (q.rest u fuel).cons q.cursor.site := by
  have hne : p.next ≠ .stop := by
    intro hstop
    have := h.cursor_eq
    rw [hstop] at this
    cases this
  rw [rest_of_ne_stop hne, h.cursor_eq, ← h.step_eq]
  exact go_of_perform h.perform_eq

/-- A rest in which something is executed has a next point. -/
theorem exists_succ {site : Site} {r : Ending × MachineState σ} (hsite : (p.rest u fuel).trail[0]? = some site)
    (hok : (p.rest u fuel).outcome = .ok r) : ∃ fuel' q, fuel = fuel' + 1 ∧ p.Succ u q ∧ q.cursor.site = site := by
  by_cases hne : p.next = .stop
  · rw [rest_of_stop hne] at hsite
    cases hsite
  · rw [rest_of_ne_stop hne] at hsite hok
    obtain ⟨fuel', q, hfuel, hstep, hcur, hq, hperform⟩ := exists_of_go hsite hok
    exact ⟨fuel', q, hfuel, ⟨hstep, hcur, by rw [hstep]; exact hperform⟩, hq⟩

end Point

/-! ## The points of a run -/

namespace CompiledUnit

variable {σ : Type} [RegisterStore σ] {u : CompiledUnit} {regs : σ} {p : Point σ}

/-- The run of `u` from the store `regs` comes to the point `p`. -/
inductive Passes (u : CompiledUnit) (regs : σ) : Point σ → Prop
  | first {p : Point σ} : p.step = 1 → u.enter 0 = some p.cursor →
      Run.perform u.edition p.step p.cursor ⟨regs, initialSp, [], []⟩ = .ok (p.next, p.state) → Passes u regs p
  | succ {p q : Point σ} : Passes u regs p → p.step < runLimit → p.Succ u q → Passes u regs q

/-- **A point splits the run**: its instruction is the last one of those executed before, and the rest is a run from
the point for as many steps as are left. -/
theorem Passes.split (hp : u.Passes regs p) : p.step ≤ runLimit ∧ ∃ before, before.length = p.step ∧
    before.getLast? = some p.cursor.site ∧ (Run.ofUnit u regs).trail = before ++ (p.rest u (runLimit - p.step)).trail ∧
      (Run.ofUnit u regs).outcome = (p.rest u (runLimit - p.step)).outcome := by
  induction hp with
  | @first p hstep hcur hperform =>
    have hleft : runLimit - p.step + 1 = runLimit := by rw [hstep]; rfl
    have hgo : Run.go u (runLimit - p.step + 1) p.step (some p.cursor) _ = _ := Point.go_of_perform hperform
    rw [hleft] at hgo
    have hrun : Run.ofUnit u regs = (p.rest u (runLimit - p.step)).cons p.cursor.site := by
      rw [Run.ofUnit, hcur, ← hgo, hstep]
    rw [hrun]
    exact ⟨by rw [hstep]; decide, [p.cursor.site], hstep.symm, rfl, rfl, rfl⟩
  | @succ p q _ hlt hsucc ih =>
    obtain ⟨-, before, hlen, -, htrail, houtcome⟩ := ih
    have hleft : runLimit - p.step = runLimit - q.step + 1 := by
      have := hsucc.step_eq
      omega
    rw [hleft, Point.rest_of_succ hsucc] at htrail houtcome
    refine ⟨by rw [hsucc.step_eq]; exact hlt, before ++ [q.cursor.site], ?_, by simp, ?_, houtcome⟩
    · rw [List.length_append, hlen, hsucc.step_eq]
      rfl
    · rw [htrail, List.append_assoc]
      rfl

/-- What is executed behind a point is executed in the rest. -/
theorem Passes.getElem?_rest (hp : u.Passes regs p) (i : Nat) :
    (p.rest u (runLimit - p.step)).trail[i]? = (Run.ofUnit u regs).trail[p.step + i]? := by
  obtain ⟨-, before, hlen, -, htrail, -⟩ := hp.split
  rw [htrail, ← hlen, List.getElem?_append_right (by omega), Nat.add_sub_cancel_left]

/-- The instruction of a point is the one executed there. -/
theorem Passes.getElem?_trail (hp : u.Passes regs p) :
    0 < p.step ∧ (Run.ofUnit u regs).trail[p.step - 1]? = some p.cursor.site := by
  obtain ⟨-, before, hlen, hlast, htrail, -⟩ := hp.split
  have hpos : 0 < before.length := List.length_pos_of_mem (List.mem_of_getLast? hlast)
  rw [List.getLast?_eq_getElem?] at hlast
  rw [← hlen, htrail, List.getElem?_append_left (by omega)]
  exact ⟨hpos, hlast⟩

theorem Passes.exists_perform (hp : u.Passes regs p) :
    ∃ s, Run.perform u.edition p.step p.cursor s = .ok (p.next, p.state) := by
  cases hp with
  | first _ _ hperform => exact ⟨_, hperform⟩
  | succ _ _ hsucc => exact ⟨_, hsucc.perform_eq⟩

/-- In a run that does not break off, there is a point behind every point but the last. -/
theorem Passes.exists_succ {r : Ending × MachineState σ} (hok : (Run.ofUnit u regs).outcome = .ok r)
    (hp : u.Passes regs p) {site : Site} (hsite : (Run.ofUnit u regs).trail[p.step]? = some site) :
    ∃ q, u.Passes regs q ∧ p.Succ u q ∧ q.cursor.site = site := by
  obtain ⟨-, -, -, -, -, houtcome⟩ := hp.split
  rw [← Nat.add_zero p.step, ← hp.getElem?_rest 0] at hsite
  obtain ⟨fuel, q, hfuel, hsucc, hq⟩ := Point.exists_succ hsite (houtcome.symm.trans hok)
  exact ⟨q, .succ hp (by omega) hsucc, hsucc, hq⟩

/-- **Whatever is executed is executed at a point**, if the run does not break off. -/
theorem exists_passes {r : Ending × MachineState σ} (hok : (Run.ofUnit u regs).outcome = .ok r) {i : Nat} {site : Site}
    (hsite : (Run.ofUnit u regs).trail[i]? = some site) :
    ∃ p, u.Passes regs p ∧ p.step = i + 1 ∧ p.cursor.site = site := by
  induction i generalizing site with
  | zero =>
    obtain ⟨fuel, p, -, hstep, hcur, hp, hperform⟩ := Point.exists_of_go hsite hok
    exact ⟨p, .first hstep hcur (by rw [hstep]; exact hperform), hstep, hp⟩
  | succ i ih =>
    have hlt : i < (Run.ofUnit u regs).trail.length := by
      have := (List.getElem?_eq_some_iff.1 hsite).1
      omega
    obtain ⟨p, hp, hstep, -⟩ := ih (List.getElem?_eq_getElem hlt)
    rw [← hstep] at hsite
    obtain ⟨q, hq, hsucc, hsite⟩ := hp.exists_succ hok hsite
    exact ⟨q, hq, by rw [hsucc.step_eq, hstep], hsite⟩

/-! ## Where a point is -/

theorem sits_enter {b : Nat} {c : Cursor} (h : u.enter b = some c) : ∃ k, c.Sits u k := by
  have hhere : u.Here (fun _ _ => True) (u.enter b) :=
    here_enter (fun _ _ _ _ _ _ => trivial) ⟨0, 0, trivial⟩ fun _ => trivial
  rw [h] at hhere
  obtain ⟨k, hc, -⟩ := hhere
  exact ⟨k, hc.toSits⟩

end CompiledUnit

namespace Cursor

open CompiledUnit

variable {u : CompiledUnit} {c c' : Cursor} {k : Nat} {next : Next}

theorem Sits.advance {b : Nat} (hc : c.Sits u k) (h : u.advance c b = some c') : ∃ k', c'.Sits u k' := by
  unfold CompiledUnit.advance at h
  split at h
  · rename_i inst rest hrest
    cases h
    exact ⟨k + 1, hc.succ hrest b⟩
  · exact sits_enter h

theorem Sits.onward (hc : c.Sits u k) (h : u.onward c next = some c') : ∃ k', c'.Sits u k' := by
  cases next with
  | fall => exact hc.advance h
  | jump target => exact hc.advance h
  | stop => cases h

/-- Going on behind an instruction of a structured unit. -/
theorem Stands.onward {P : Nat → Nat → Prop} (hu : u.Structured) (hP : u.Edgewise P) (hc : c.Stands u k)
    (hgo : c.inst.Goes next) (h : P c.block (k + 1)) : u.Here P (u.onward c next) := by
  cases next with
  | fall => exact hc.fall hP hgo h
  | jump target => exact hc.jump hu hP hgo h
  | stop => exact ⟨_, _, h⟩

end Cursor

namespace CompiledUnit

variable {σ : Type} [RegisterStore σ] {u : CompiledUnit} {regs : σ} {p : Point σ}

/-- A point is at an instruction of the unit, whatever the unit. -/
theorem Passes.sits (hp : u.Passes regs p) : ∃ k, p.cursor.Sits u k := by
  induction hp with
  | first _ hcur _ => exact sits_enter hcur
  | succ _ _ hsucc ih =>
    obtain ⟨k, hk⟩ := ih
    exact hk.onward hsucc.cursor_eq

/-- **What every instruction of a structured unit keeps holds at every point**, by the place of the point. -/
theorem Passes.stands {I : MachineState σ → Nat → Nat → Prop} (hu : u.Structured) (hI : ∀ s, u.Edgewise (I s))
    (hstep : ∀ step c k s next s', c.Stands u k → I s c.block k →
      Run.perform u.edition step c s = .ok (next, s') → I s' c.block (k + 1))
    (hstart : I ⟨regs, initialSp, [], []⟩ 0 0) (hp : u.Passes regs p) :
    ∃ k, p.cursor.Stands u k ∧ p.cursor.inst.Goes p.next ∧ I p.state p.cursor.block (k + 1) := by
  induction hp with
  | first _ hcur hperform =>
    have hhere := here_enter (hI _) ⟨0, 0, hstart⟩ fun _ => hstart
    rw [hcur] at hhere
    obtain ⟨k, hc, hk⟩ := hhere
    exact ⟨k, hc, Run.goes_of_perform hperform, hstep _ _ _ _ _ _ hc hk hperform⟩
  | succ _ _ hsucc ih =>
    obtain ⟨k, hc, hgo, hk⟩ := ih
    have hhere := hc.onward hu (hI _) hgo hk
    rw [hsucc.cursor_eq] at hhere
    obtain ⟨l, hc', hl⟩ := hhere
    exact ⟨l, hc', Run.goes_of_perform hsucc.perform_eq, hstep _ _ _ _ _ _ hc' hl hsucc.perform_eq⟩

end CompiledUnit

end ChillHints
