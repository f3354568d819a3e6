import ChillHints.Proofs.Point
import ChillHints.Proofs.Simulation
import ChillHints.Proofs.Termination

/-!
# Runs halt

A run is given by a number of steps that is counted down, with empty blocks passed in between. A machine has no such
number. It is a loop that enters a block, goes through its instructions and then to the block that was named last, and
that counts the instructions up as it begins them (`Execution.turn`). A turn that enters or leaves a block is not
counted, so the count alone does not show that the loop ends. What goes down is the number of steps that are left, and
while that stays the same, the number of blocks that are ahead: only an instruction can send control back
(`Turns.lowers`).

So the loop ends, in every unit and on every store, and what it ends with is the run (`halts`). The runs on the three
stores go the same way until one of them breaks off (`Run.Leads.take_trail`).
-/

namespace ChillHints

/-! ## The loop -/

/-- Where the loop is. -/
inductive Place where
  /-- At block `b`, which is entered if it exists. -/
  | before (b : Nat)
  /-- In block `b`: the instructions `rest` are still to come, and after them block `next`, as far as is known. -/
  | inside (b : Nat) (rest : List (Nat × Inst)) (next : Nat)

namespace Place

/-- Where the loop is behind an instruction of block `b`, unless it stops there. -/
def behind (b : Nat) (rest : List (Nat × Inst)) (next : Nat) : Next → Option Place
  | .fall => some (.inside b rest next)
  | .jump target => some (.inside b rest target.toNat)
  | .stop => none

/-- The cursor at an instruction of block `b`. -/
def cursorAt (b : Nat) (p : Nat × Inst) (rest : List (Nat × Inst)) (next : Nat) : Cursor :=
  ⟨b, p.1, p.2, rest.map Prod.snd, next⟩

end Place

/-- A run under way. -/
structure Execution (σ : Type) where
  place : Place
  /-- How many instructions have been begun. -/
  step : Nat
  /-- The instructions begun, first to last. -/
  trail : List Site
  state : MachineState σ

namespace Execution

variable {σ : Type} [RegisterStore σ]

def initial (regs : σ) : Execution σ := ⟨.before 0, 0, [], ⟨regs, initialSp, [], []⟩⟩

/-- Executes the instruction `p` of block `b`. -/
def execute (u : CompiledUnit) (x : Execution σ) (b : Nat) (p : Nat × Inst) (rest : List (Nat × Inst)) (next : Nat) :
    Execution σ ⊕ Run σ :=
  match Run.perform u.edition (x.step + 1) (Place.cursorAt b p rest next) x.state with
  | .error f => .inr ⟨x.trail ++ [⟨b, p.1⟩], .error f⟩
  | .ok (flow, s) =>
    match Place.behind b rest next flow with
    | some place => .inl ⟨place, x.step + 1, x.trail ++ [⟨b, p.1⟩], s⟩
    | none => .inr ⟨x.trail ++ [⟨b, p.1⟩], .ok (.returned, s)⟩

/-- One turn of the loop. -/
def turn (u : CompiledUnit) (x : Execution σ) : Execution σ ⊕ Run σ :=
  match x.place with
  | .before b =>
    if b < u.size then .inl { x with place := .inside b (u.blockInsts b) (b + 1) }
    else .inr ⟨x.trail, .ok (.left, x.state)⟩
  | .inside _ [] next => .inl { x with place := .before next }
  | .inside b (p :: rest) next =>
    if runLimit < x.step + 1 then .inr ⟨x.trail, .ok (.stopped, x.state)⟩ else x.execute u b p rest next

/-- What a turn can do. -/
inductive Turns (u : CompiledUnit) (x : Execution σ) : Execution σ ⊕ Run σ → Prop
  | enter {b : Nat} : x.place = .before b → b < u.size →
      Turns u x (.inl { x with place := .inside b (u.blockInsts b) (b + 1) })
  | left {b : Nat} : x.place = .before b → u.size ≤ b → Turns u x (.inr ⟨x.trail, .ok (.left, x.state)⟩)
  | leave {b next : Nat} : x.place = .inside b [] next → Turns u x (.inl { x with place := .before next })
  | stopped {b next : Nat} {p : Nat × Inst} {rest : List (Nat × Inst)} : x.place = .inside b (p :: rest) next →
      runLimit ≤ x.step → Turns u x (.inr ⟨x.trail, .ok (.stopped, x.state)⟩)
  | exec {b next : Nat} {p : Nat × Inst} {rest : List (Nat × Inst)} {flow : Next} {s : MachineState σ} {place : Place} :
      x.place = .inside b (p :: rest) next → x.step < runLimit →
      Run.perform u.edition (x.step + 1) (Place.cursorAt b p rest next) x.state = .ok (flow, s) →
      Place.behind b rest next flow = some place →
      Turns u x (.inl ⟨place, x.step + 1, x.trail ++ [⟨b, p.1⟩], s⟩)
  | returned {b next : Nat} {p : Nat × Inst} {rest : List (Nat × Inst)} {flow : Next} {s : MachineState σ} :
      x.place = .inside b (p :: rest) next → x.step < runLimit →
      Run.perform u.edition (x.step + 1) (Place.cursorAt b p rest next) x.state = .ok (flow, s) →
      Place.behind b rest next flow = none →
      Turns u x (.inr ⟨x.trail ++ [⟨b, p.1⟩], .ok (.returned, s)⟩)
  | broken {b next : Nat} {p : Nat × Inst} {rest : List (Nat × Inst)} {f : Fault} :
      x.place = .inside b (p :: rest) next → x.step < runLimit →
      Run.perform u.edition (x.step + 1) (Place.cursorAt b p rest next) x.state = .error f →
      Turns u x (.inr ⟨x.trail ++ [⟨b, p.1⟩], .error f⟩)

theorem turns_turn (u : CompiledUnit) (x : Execution σ) : x.Turns u (x.turn u) := by
  unfold turn
  split
  · rename_i b hplace
    split
    · rename_i hb
      exact .enter hplace hb
    · rename_i hb
      exact .left hplace (Nat.le_of_not_lt hb)
  · rename_i b next hplace
    exact .leave hplace
  · rename_i b p rest next hplace
    split
    · rename_i hstep
      exact .stopped hplace (Nat.le_of_lt_succ hstep)
    · rename_i hstep
      have hlt : x.step < runLimit := Nat.lt_of_succ_le (Nat.le_of_not_lt hstep)
      unfold execute
      cases hperform : Run.perform u.edition (x.step + 1) (Place.cursorAt b p rest next) x.state with
      | error f => exact .broken hplace hlt hperform
      | ok a =>
        obtain ⟨flow, s⟩ := a
        cases hbehind : Place.behind b rest next flow with
        | none => simpa only [hbehind] using Turns.returned hplace hlt hperform hbehind
        | some place => simpa only [hbehind] using Turns.exec hplace hlt hperform hbehind

end Execution

/-! ## The measure -/

namespace Execution

/-- How often a block is entered or left before control is out of the unit, if it is not sent anywhere else. -/
def blocksAhead (u : CompiledUnit) : Place → Nat
  | .before b => 2 * (u.size - b)
  | .inside _ _ next => 2 * (u.size - next) + 1

variable {σ : Type} {u : CompiledUnit} {x y : Execution σ}

/-- The steps that are left, and then the blocks that are ahead. -/
def rank (u : CompiledUnit) (x : Execution σ) : Nat × Nat := (runLimit - x.step, blocksAhead u x.place)

/-- Fewer steps are left, or as many and fewer blocks are ahead. -/
def Lowers (u : CompiledUnit) (y x : Execution σ) : Prop := Prod.Lex (· < ·) (· < ·) (y.rank u) (x.rank u)

/-- A bound on the number of turns. -/
def turnsLeft (u : CompiledUnit) (x : Execution σ) : Nat :=
  (runLimit - x.step) * (2 * u.size + 2) + blocksAhead u x.place

/-- An instruction may send control back to the start, which costs no more turns than its step allows for. -/
theorem Lowers.turnsLeft_lt (h : y.Lowers u x) : y.turnsLeft u < x.turnsLeft u := by
  have hle : blocksAhead u y.place < 2 * u.size + 2 := by
    cases y.place <;> simp only [blocksAhead] <;> omega
  unfold turnsLeft
  rcases Prod.lex_iff.1 h with hlt | ⟨heq, hlt⟩
  · have hmul : (runLimit - y.step + 1) * (2 * u.size + 2) ≤ (runLimit - x.step) * (2 * u.size + 2) :=
      Nat.mul_le_mul_right _ hlt
    rw [Nat.succ_mul] at hmul
    omega
  · have heq : runLimit - y.step = runLimit - x.step := heq
    rw [heq]
    exact Nat.add_lt_add_left hlt _

/-- **A turn executes an instruction, or it leaves a block behind.** -/
theorem Turns.lowers [RegisterStore σ] (h : x.Turns u (.inl y)) : y.Lowers u x := by
  unfold Lowers rank
  cases h with
  | enter hplace hb =>
    rw [hplace]
    exact .right _ (by simp only [blocksAhead]; omega)
  | leave hplace =>
    rw [hplace]
    exact .right _ (by simp only [blocksAhead]; omega)
  | exec _ hstep _ _ =>
    refine .left _ _ ?_
    change runLimit - (x.step + 1) < runLimit - x.step
    omega

end Execution

/-! ## The cursor of a place -/

/-- Each instruction stands one position behind the one before it. -/
def Consecutive (insts : List (Nat × Inst)) : Prop := insts.IsChain fun p q => q.1 = p.1 + 1

namespace Place

variable {u : CompiledUnit} {b next : Nat} {p : Nat × Inst} {rest : List (Nat × Inst)} {flow : Next} {place : Place}

/-- The instructions that are still to come in the block. -/
def pending : Place → List (Nat × Inst)
  | before _ => []
  | inside _ rest _ => rest

/-- The instruction that the loop comes to from a place. -/
def cursor? (u : CompiledUnit) : Place → Option Cursor
  | before b => u.enter b
  | inside _ [] next => u.enter next
  | inside b (p :: rest) next => some (cursorAt b p rest next)

theorem cursor?_inside (hrest : Consecutive (p :: rest)) (next' : Nat) :
    (inside b rest next').cursor? u = u.advance (cursorAt b p rest next) next' := by
  cases rest with
  | nil => rfl
  | cons q rest =>
    obtain ⟨hq, -⟩ := List.isChain_cons_cons.1 hrest
    simp only [cursor?, cursorAt, CompiledUnit.advance, List.map_cons, hq]

theorem eq_stop_of_behind (h : behind b rest next flow = none) : flow = .stop := by
  cases flow with
  | fall => cases h
  | jump target => cases h
  | stop => rfl

/-- Behind an instruction, the loop comes to where the run goes on. -/
theorem cursor?_behind (hrest : Consecutive (p :: rest)) (h : behind b rest next flow = some place) :
    place.cursor? u = u.onward (cursorAt b p rest next) flow ∧ flow ≠ .stop ∧ place.pending = rest := by
  cases flow with
  | fall =>
    cases h
    exact ⟨cursor?_inside hrest next, by decide, rfl⟩
  | jump target =>
    cases h
    exact ⟨cursor?_inside hrest target.toNat, by simp, rfl⟩
  | stop => cases h

end Place

namespace CompiledUnit

variable {u : CompiledUnit} {b : Nat}

theorem consecutive_zipIdx (insts : List Inst) (n : Nat) : Consecutive ((insts.zipIdx n).map Prod.swap) := by
  induction insts generalizing n with
  | nil => exact List.isChain_nil
  | cons i insts ih =>
    have ih := ih (n + 1)
    cases insts with
    | nil => exact List.isChain_singleton _
    | cons j insts => exact List.isChain_cons_cons.2 ⟨rfl, ih⟩

/-- From the start of a block the loop comes to where the run does. -/
theorem cursor?_blockInsts (hb : b < u.size) : (Place.inside b (u.blockInsts b) (b + 1)).cursor? u = u.enter b := by
  rw [blockInsts_eq hb]
  cases hblock : u.blockAt b with
  | nil => exact (enter_of_nil hb hblock).symm
  | cons inst rest =>
    rw [enter_of_cons hb hblock]
    simp [Place.cursor?, Place.cursorAt, Function.comp_def]

end CompiledUnit

/-! ## What a turn keeps -/

namespace Execution

open CompiledUnit

variable {σ : Type} [RegisterStore σ] {u : CompiledUnit} {x y : Execution σ} {r : Run σ} {regs : σ}

/-- What the run is to do from here. -/
def ahead (u : CompiledUnit) (x : Execution σ) : Run σ :=
  Run.go u (runLimit - x.step) (x.step + 1) (x.place.cursor? u) x.state

/-- The run with what it has done so far. -/
def whole (u : CompiledUnit) (x : Execution σ) : Run σ := ⟨x.trail ++ (x.ahead u).trail, (x.ahead u).outcome⟩

/-- What is known of the loop from the store `regs`. -/
structure Sound (u : CompiledUnit) (regs : σ) (x : Execution σ) : Prop where
  consecutive : Consecutive x.place.pending
  /-- The count is that of the instructions. -/
  counts : x.trail.length = x.step
  le_limit : x.step ≤ runLimit
  whole_eq : x.whole u = Run.ofUnit u regs

theorem sound_initial (u : CompiledUnit) (regs : σ) : (initial regs).Sound u regs :=
  ⟨List.isChain_nil, rfl, Nat.zero_le _, rfl⟩

/-- Executing an instruction is the first step of what was ahead. -/
theorem ahead_of_perform {c : Cursor} {flow : Next} {s : MachineState σ} (hcur : x.place.cursor? u = some c)
    (hstep : x.step < runLimit) (h : Run.perform u.edition (x.step + 1) c x.state = .ok (flow, s)) :
    x.ahead u = (Point.rest u (runLimit - (x.step + 1)) ⟨x.step + 1, c, flow, s⟩).cons c.site := by
  have hleft : runLimit - x.step = runLimit - (x.step + 1) + 1 := by omega
  rw [ahead, hcur, hleft]
  exact Point.go_of_perform (p := ⟨x.step + 1, c, flow, s⟩) h

/-- **A turn keeps what is known of the loop.** -/
theorem Sound.turns (hx : x.Sound u regs) (h : x.Turns u (.inl y)) : y.Sound u regs := by
  cases h with
  | @enter b hplace hb =>
    refine ⟨?_, hx.counts, hx.le_limit, ?_⟩
    · change Consecutive (u.blockInsts b)
      rw [blockInsts_eq hb]
      exact consecutive_zipIdx _ _
    · rw [← hx.whole_eq, whole, whole, ahead, ahead, cursor?_blockInsts hb, hplace]
      rfl
  | leave hplace =>
    refine ⟨List.isChain_nil, hx.counts, hx.le_limit, ?_⟩
    rw [← hx.whole_eq, whole, whole, ahead, ahead, hplace]
    rfl
  | @exec b next p rest flow s place hplace hstep hperform hbehind =>
    have hrest : Consecutive (p :: rest) := by
      have := hx.consecutive
      rwa [hplace] at this
    obtain ⟨hcursor, hflow, hplace'⟩ := Place.cursor?_behind (u := u) hrest hbehind
    have hahead := ahead_of_perform (by rw [hplace]; rfl) hstep hperform
    rw [Point.rest_of_ne_stop hflow] at hahead
    refine ⟨?_, by rw [List.length_append, hx.counts]; rfl, hstep, ?_⟩
    · change Consecutive place.pending
      rw [hplace']
      exact hrest.tail
    · rw [← hx.whole_eq, whole, whole, hahead, List.append_assoc, ahead, hcursor]
      rfl

theorem go_none (u : CompiledUnit) (fuel step : Nat) (s : MachineState σ) :
    Run.go u fuel step none s = ⟨[], .ok (.left, s)⟩ := by
  cases fuel <;> rfl

/-- **The last turn gives the run.** -/
theorem Sound.eq_of_turns (hx : x.Sound u regs) (h : x.Turns u (.inr r)) : r = Run.ofUnit u regs := by
  rw [← hx.whole_eq, whole]
  cases h with
  | left hplace hb =>
    rw [ahead, hplace, Place.cursor?, enter_of_le hb, go_none, List.append_nil]
  | stopped hplace hstep =>
    have hleft : runLimit - x.step = 0 := Nat.sub_eq_zero_of_le hstep
    rw [ahead, hplace, hleft]
    exact congrArg (Run.mk · _) (List.append_nil _).symm
  | returned hplace hstep hperform hbehind =>
    have hflow := Place.eq_stop_of_behind hbehind
    rw [ahead_of_perform (by rw [hplace]; rfl) hstep hperform, Point.rest_of_stop hflow]
    rfl
  | broken hplace hstep hperform =>
    have hleft : runLimit - x.step = runLimit - (x.step + 1) + 1 := by omega
    rw [ahead, hplace, hleft, Place.cursor?, Run.go, hperform]
    rfl

end Execution

/-! ## Runs -/

namespace Run

variable {σ τ : Type}

theorem length_trail_go_le [RegisterStore σ] (u : CompiledUnit) (fuel step : Nat) (cur : Option Cursor)
    (s : MachineState σ) : (go u fuel step cur s).trail.length ≤ fuel := by
  induction fuel generalizing step cur s with
  | zero => cases cur <;> exact Nat.le_refl _
  | succ fuel ih =>
    cases cur with
    | none => exact Nat.zero_le _
    | some c =>
      rw [go]
      split
      · exact Nat.le_add_left 1 fuel
      · exact Nat.le_add_left 1 fuel
      · exact Nat.succ_le_succ (ih _ _ _)
      · exact Nat.succ_le_succ (ih _ _ _)

/-- The run does not break off before step `n`. -/
def Lasts (r : Run σ) (n : Nat) : Prop := ∀ m, r.brokeOffAt? = some m → n ≤ m

/-- A run that is led goes the same way as long as the first one has not broken off. -/
theorem Leads.take_trail {R : σ → τ → Prop} {r : Run σ} {r' : Run τ} {n : Nat} (h : r.Leads R r') (hn : r.Lasts n) :
    r'.trail.take n = r.trail.take n := by
  cases hr : r.outcome with
  | ok a => rw [(h.ends a.1 a.2 hr).1]
  | error f =>
    have hle : n ≤ r.trail.length := hn _ (by rw [brokeOffAt?, hr])
    obtain ⟨after, hafter⟩ := h.trail_le
    rw [← hafter, List.take_append_of_le_length hle]

end Run

namespace CompiledUnit

open Execution

/-- The loop from the store `regs` ends with the run, and within the limit. -/
structure Halts {σ : Type} [RegisterStore σ] (u : CompiledUnit) (regs : σ) : Prop where
  /-- Every turn uses up a step or leaves a block behind, and the loop ends by itself. -/
  ends : EndsWith (turn u) (initial regs) (turnsLeft u) (Lowers u) (Run.ofUnit u regs)
  /-- At no time have more instructions been begun than the limit allows. -/
  counts : ∀ x, Comes (turn u) (initial regs) x → x.trail.length = x.step ∧ x.step ≤ runLimit
  within : (Run.ofUnit u regs).trail.length ≤ runLimit

/-- **The loop ends**, in every unit and on every store. -/
theorem halts {σ : Type} [RegisterStore σ] (u : CompiledUnit) (regs : σ) : u.Halts regs := by
  have hnext : ∀ x y : Execution σ, x.Sound u regs → x.turn u = .inl y →
      y.Sound u regs ∧ y.Lowers u x ∧ y.turnsLeft u < x.turnsLeft u := by
    intro x y hx hturn
    have hturns : x.Turns u (.inl y) := hturn ▸ turns_turn u x
    exact ⟨hx.turns hturns, hturns.lowers, hturns.lowers.turnsLeft_lt⟩
  have hsound : ∀ x, Comes (turn u) (initial regs) x → x.Sound u regs :=
    fun x hx => hx.invariant (sound_initial u regs) fun x y hx hturn => (hnext x y hx hturn).1
  refine ⟨⟨fun x y hx hturn => (hnext x y (hsound x hx) hturn).2, fun bound hbound => ?_⟩,
    fun x hx => ⟨(hsound x hx).counts, (hsound x hx).le_limit⟩, Run.length_trail_go_le u _ _ _ _⟩
  obtain ⟨r, hr, heq⟩ := loop_spec (P := (· = Run.ofUnit u regs))
    (fun x y hx hturn => ⟨(hnext x y hx hturn).1, (hnext x y hx hturn).2.2⟩)
    (fun x r hx hturn => hx.eq_of_turns (hturn ▸ turns_turn u x)) bound (initial regs) (sound_initial u regs) hbound
  rw [hr, heq]

/-- **Runs halt, and go the same way.** Whatever the unit, well formed or not, the machine comes to an end on each of the
three stores, with no more instructions than the limit, and as long as none of the three runs has broken off, the same
instructions are executed in all of them. -/
theorem runs_halt_together (u : CompiledUnit) (T : HintTable) :
    u.Halts Direct.empty ∧ u.Halts Spilling.empty ∧ u.Halts (Hinted.new T) ∧
    ∀ n, (Run.ofUnit u Direct.empty).Lasts n → (Run.ofUnit u Spilling.empty).Lasts n →
      (Run.ofUnit u (Hinted.new T)).Lasts n →
        (Run.ofUnit u Spilling.empty).trail.take n = (Run.ofUnit u Direct.empty).trail.take n ∧
        (Run.ofUnit u (Hinted.new T)).trail.take n = (Run.ofUnit u Direct.empty).trail.take n := by
  refine ⟨u.halts _, u.halts _, u.halts _, fun n hdirect _ hhinted => ⟨?_, ?_⟩⟩
  · exact (Spilling.simulation_of_direct.ofUnit u Spilling.reflects_empty).take_trail hdirect
  · exact ((Hinted.simulation_to_direct.ofUnit u (Hinted.honest_new T)).take_trail hhinted).symm

/-- A loop without an end: through a branch in the middle of a block, through empty blocks, and back. -/
def restless : CompiledUnit where
  name := "restless"
  edition := .e0
  blocks := [[.const (.gp 0 .w64) 1, .br 2, .blackbox (.gp 0 .w64)], [.ret none], [], [], [.condbr (.gp 0 .w64) 0 9]]
  blocks_ne_nil := by decide

/-- A hint that throws away what is read two instructions later. -/
def restlessHints : HintTable where
  edition := .e0
  instsLen := 5
  hints := [⟨0, [⟨.gp, 0, .never⟩]⟩]

/-- With the hint the run breaks off in its third step, and without it the run goes on up to the limit. Up to the third
step all is the same. -/
theorem restless_runs_halt_together :
    restless.Halts Direct.empty ∧ restless.Halts Spilling.empty ∧ restless.Halts (Hinted.new restlessHints) ∧
    (Run.ofUnit restless Direct.empty).trail.length = runLimit ∧
    (Run.ofUnit restless (Hinted.new restlessHints)).brokeOffAt? = some 3 ∧
    (Run.ofUnit restless Spilling.empty).trail.take 3 = (Run.ofUnit restless Direct.empty).trail.take 3 ∧
    (Run.ofUnit restless (Hinted.new restlessHints)).trail.take 3 = (Run.ofUnit restless Direct.empty).trail.take 3 := by
  have hdirect : (Run.ofUnit restless Direct.empty).brokeOffAt? = none := by decide +kernel
  have hspilling : (Run.ofUnit restless Spilling.empty).brokeOffAt? = none := by decide +kernel
  have hhinted : (Run.ofUnit restless (Hinted.new restlessHints)).brokeOffAt? = some 3 := by decide +kernel
  obtain ⟨h₁, h₂, h₃, htogether⟩ := runs_halt_together restless restlessHints
  refine ⟨h₁, h₂, h₃, by decide +kernel, hhinted, htogether 3 (fun m hm => ?_) (fun m hm => ?_) fun m hm => ?_⟩
  · cases hdirect.symm.trans hm
  · cases hspilling.symm.trans hm
  · cases hhinted.symm.trans hm
    exact Nat.le_refl 3

end CompiledUnit

end ChillHints
