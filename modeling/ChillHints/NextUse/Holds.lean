import ChillHints.Flow.Basic

/-!
# Which groups may hold a value

A group may hold a value after an instruction if on some path from the entry its last write has not been followed by
a drop. The stack pointer holds one from the start. In blocks that cannot be reached nothing is held on entry.
-/

namespace ChillHints

/-- For each group, may it hold a value? -/
abbrev Holds := Cells 16 Bool

namespace Holds

def nothing : Holds := .all false

/-- On entry to the unit. -/
def atEntry : Holds := nothing.put Group.sp true

/-- Where paths meet, what is held on either of them may be held. -/
def join (s t : Holds) : Holds := .tabulate fun g => s.get g || t.get g

/-- The state after one access. -/
def access (s : Holds) (a : Access) : Holds :=
  match a.role with
  | .read => s
  | .write => s.put a.group true
  | .drop => s.put a.group false

/-- The state after an instruction. -/
def after (s : Holds) (inst : List Access) : Holds := inst.foldl access s

/-- The states after each of a sequence of instructions. -/
def trace (s : Holds) : List (List Access) → List Holds
  | [] => []
  | inst :: rest => s.after inst :: (s.after inst).trace rest

end Holds

namespace Flow

variable {n : Nat}

/-- The state on entry to block `b`, from the states at the ends of the blocks. -/
def entryHolds (f : Flow n) (b : Fin n) (outs : Cells n Holds) : Holds :=
  if f.reached.get b then
    (f.livePreds b).foldl (fun s p => s.join (outs.get p)) (if b.val = 0 then Holds.atEntry else Holds.nothing)
  else Holds.nothing

/-- The state at the end of block `b`. -/
def exitHoldsOf (f : Flow n) (b : Fin n) (outs : Cells n Holds) : Holds :=
  (f.code.get b).foldl Holds.after (f.entryHolds b outs)

/-- The states at the ends of all blocks. A sweep that changes something adds one of `16 * n` groups. -/
def exitHolds (f : Flow n) : Cells n Holds :=
  let unknown := .all Holds.nothing
  (loop (sweepStep f.exitHoldsOf) (n * 16 + 1) unknown).getD unknown

/-- The states after every instruction, in program order. -/
def holdsAfter (f : Flow n) : List Holds :=
  let outs := f.exitHolds
  (List.finRange n).flatMap fun b => (f.entryHolds b outs).trace (f.code.get b)

end Flow

end ChillHints
