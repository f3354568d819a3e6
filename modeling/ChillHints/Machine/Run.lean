import ChillHints.Code.CompiledUnit
import ChillHints.Machine.Exec
import ChillHints.Machine.Hinted

/-!
# Running a unit

A run executes at most 1000 instructions. A terminator in the middle of a block does not leave the block: the last
jump of a block decides which block is next, except that `ret` ends the run. The run also ends when control leaves
the unit, which is when the next block does not exist.

`Run.trail` lists the instructions that were begun, so that runs on different stores can be compared step by step.
-/

namespace ChillHints

/-- How many instructions are executed before a run is stopped. -/
def runLimit : Nat := 1000

/-- Where the stack pointer is at the start. -/
def initialSp : UInt64 := 0x7fff0000

/-- The instruction to be executed next, the rest of its block, and the block after that as far as is known. -/
structure Cursor where
  block : Nat
  iidx : Nat
  inst : Inst
  rest : List Inst
  next : Nat
deriving DecidableEq, Repr

/-- The first instruction from block `b` on, the first of whose instructions is at `iidx`. -/
def enterFrom (b iidx : Nat) : List (List Inst) → Option Cursor
  | [] => none
  | [] :: blocks => enterFrom (b + 1) iidx blocks
  | (inst :: rest) :: _ => some ⟨b, iidx, inst, rest, b + 1⟩

namespace CompiledUnit

/-- Where control stands when it has gone to block `b`. -/
def enter (u : CompiledUnit) (b : Nat) : Option Cursor := enterFrom b (u.start b) (u.blocks.drop b)

/-- Where control goes from `c` when the block after this one is `next`. -/
def advance (u : CompiledUnit) (c : Cursor) (next : Nat) : Option Cursor :=
  match c.rest with
  | inst :: rest => some ⟨c.block, c.iidx + 1, inst, rest, next⟩
  | [] => u.enter next

end CompiledUnit

/-- The place of an instruction: its block and its position. -/
structure Site where
  block : Nat
  iidx : Nat
deriving DecidableEq, Repr

def Cursor.site (c : Cursor) : Site := ⟨c.block, c.iidx⟩

/-- How a run ends. -/
inductive Ending where
  /-- A `ret` was executed. -/
  | returned
  /-- Control left the unit. -/
  | left
  /-- The limit was reached. -/
  | stopped
deriving DecidableEq, Repr

/-- A run on a store. -/
structure Run (σ : Type) where
  /-- The instructions begun, first to last. -/
  trail : List Site
  outcome : Except Fault (Ending × MachineState σ)

namespace Run

variable {σ : Type} [RegisterStore σ]

/-- Executes one instruction, as step number `step`. -/
def perform (e : Edition) (step : Nat) (c : Cursor) (s : MachineState σ) : Except Fault (Next × MachineState σ) := do
  let (flow, s) ← Exec.inst e step c.inst s
  let regs ← RegisterStore.afterInst step c.iidx s.regs
  return (flow, { s with regs })

/-- Goes on from a cursor for at most `fuel` steps, the first of which has number `step`. -/
def go (u : CompiledUnit) : (fuel step : Nat) → Option Cursor → MachineState σ → Run σ
  | _, _, none, s => ⟨[], .ok (.left, s)⟩
  | 0, _, some _, s => ⟨[], .ok (.stopped, s)⟩
  | fuel + 1, step, some c, s =>
    match perform u.edition step c s with
    | .error f => ⟨[c.site], .error f⟩
    | .ok (.stop, s) => ⟨[c.site], .ok (.returned, s)⟩
    | .ok (.fall, s) =>
      let r := go u fuel (step + 1) (u.advance c c.next) s
      ⟨c.site :: r.trail, r.outcome⟩
    | .ok (.jump target, s) =>
      let r := go u fuel (step + 1) (u.advance c target.toNat) s
      ⟨c.site :: r.trail, r.outcome⟩

/-- Runs a unit on a store. -/
def ofUnit (u : CompiledUnit) (regs : σ) : Run σ := go u runLimit 1 (u.enter 0) ⟨regs, initialSp, [], []⟩

/-- What was seen of the run, and the store at its end. -/
def result (r : Run σ) : Except Fault (List Event × σ) := r.outcome.map fun (_, s) => (s.events, s.regs)

end Run

namespace CompiledUnit

/-- The events of a run with a place for every group. -/
def runDirect (u : CompiledUnit) : Except Fault (List Event) :=
  (Run.ofUnit u Direct.empty).result.map fun (events, _) => events

/-- The events of a run with four registers, and how many values were reloaded. -/
def runSpilling (u : CompiledUnit) : Except Fault (List Event × Nat) :=
  (Run.ofUnit u Spilling.empty).result.map fun (events, s) => (events, s.reloads)

/-- The events of a run that follows a table of hints, and how many values were thrown away. -/
def runHinted (u : CompiledUnit) (t : HintTable) : Except Fault (List Event × Nat) :=
  (Run.ofUnit u (Hinted.new t)).result.map fun (events, s) => (events, s.discards)

end CompiledUnit

end ChillHints
