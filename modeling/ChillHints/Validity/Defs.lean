import ChillHints.Flow.Basic
import ChillHints.Rejection

/-!
# What has been written

`Defs` says of every group how many low bits are written on all paths to a point: the least over the paths, or
nothing if on some path the last thing that happened to the group was not a write. On entry to the unit only the
stack pointer is written. Blocks that cannot be reached start with nothing, not even the stack pointer.

`Flow.entryDefs` finds the state on entry to every block by sweeping over the blocks; `none` stands for a block
whose predecessors have not been computed, and does not count when paths meet.
-/

namespace ChillHints

/-- For each group, how many low bits are written on every path. -/
abbrev Defs := Cells 16 (Option Nat)

namespace Defs

/-- Nothing is written. -/
def nothing : Defs := .all none

/-- The state on entry to the unit. -/
def atEntry : Defs := nothing.put Group.sp (some (Edition.ptrBits .e0))

/-- What is written on both of two paths. -/
def narrower : Option Nat → Option Nat → Option Nat
  | some a, some b => some (min a b)
  | _, _ => none

/-- The state where two paths meet. -/
def meet (d d' : Defs) : Defs := .tabulate fun g => narrower (d.get g) (d'.get g)

/-- The state after one access. -/
def access (d : Defs) (a : Access) : Defs :=
  match a.role with
  | .read => d
  | .write => d.put a.group (some a.bits)
  | .drop => d.put a.group none

/-- The state after an instruction. -/
def after (d : Defs) (inst : List Access) : Defs := inst.foldl access d

/-- The flaw of an access of the instruction at `iidx`, which is reached in state `d`. -/
def readFlaw? (d : Defs) (iidx : Nat) (a : Access) : Option Rejection :=
  match a.role, d.get a.group with
  | .read, none => some (.useBeforeDef iidx a.reg)
  | .read, some bits => if bits < a.bits then some (.readBeyondWrittenWidth iidx a.reg bits) else none
  | _, _ => none

/-- The first flawed read of a block that is entered in state `d`, whose first instruction is at `iidx`. -/
def blockFlaw? (d : Defs) (iidx : Nat) : List (List Access) → Option Rejection
  | [] => none
  | inst :: rest =>
    match inst.findSome? (d.readFlaw? iidx) with
    | some r => some r
    | none => (d.after inst).blockFlaw? (iidx + 1) rest

end Defs

namespace Flow

variable {n : Nat}

/-- The state at the end of block `b` that is entered in state `d`. -/
def exitDefs (f : Flow n) (b : Fin n) (d : Defs) : Defs := (f.code.get b).foldl Defs.after d

/-- Adds one more path to a meeting point. -/
def meetKnown : Option Defs → Defs → Option Defs
  | none, d => some d
  | some s, d => some (s.meet d)

/-- The state on entry to block `b`, from the states on entry to the others. -/
def entryDefsOf (f : Flow n) (b : Fin n) (ins : Cells n (Option Defs)) : Option Defs :=
  if f.reached.get b then
    let outs := (f.livePreds b).filterMap fun p => (ins.get p).map (f.exitDefs p)
    outs.foldl meetKnown (if b.val = 0 then some Defs.atEntry else none)
  else some Defs.nothing

/-- The states on entry to all blocks. A sweep that changes something lowers one of `n` states, each of which can be
lowered at most `16 * 65 + 1` times. -/
def entryDefs (f : Flow n) : Cells n (Option Defs) :=
  let unknown := .all none
  (loop (sweepStep f.entryDefsOf) (n * (16 * 65 + 1) + 1) unknown).getD unknown

/-- The position of the first instruction of block `b`. -/
def start (f : Flow n) (b : Fin n) : Nat := (f.code.toList.take b).flatten.length

/-- The first read, in program order, of something that is not written, or not as wide as the read. -/
def readFlaw? (f : Flow n) : Option Rejection :=
  let ins := f.entryDefs
  (List.finRange n).findSome? fun b => ((ins.get b).getD Defs.nothing).blockFlaw? (f.start b) (f.code.get b)

end Flow

end ChillHints
