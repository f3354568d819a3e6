import ChillHints.Flow.Basic
import ChillHints.NextUse.Basic

/-!
# The backward scan for next uses

Going backwards over an instruction, every distance grows by one; a group that the instruction writes or drops is
never used before that; a group that it reads is used next. Reads come before writes, so a group that is both is
used next. Where control splits, the sooner use counts, and at the end of the unit nothing is used any more.

A narrow write ends the old value of its group as a whole.

`Scan` is a search for the states on entry to the blocks: a stack of blocks whose state has to be computed anew. A
block whose state changes puts those of its predecessors that are not on the stack onto it.
-/

namespace ChillHints

/-- For each group, the next use of its value. -/
abbrev Uses := Cells 16 NextUse

namespace Uses

/-- Nothing is used any more. -/
def nothing : Uses := .all .never

/-- The uses where control can go either way. -/
def join (s t : Uses) : Uses := .tabulate fun g => NextUse.sooner (s.get g) (t.get g)

/-- What an access that ends a value makes of the uses after it. -/
def kill (s : Uses) (a : Access) : Uses :=
  match a.role with
  | .read => s
  | _ => s.put a.group .never

/-- What an access that reads a value makes of the uses after it. -/
def read (s : Uses) (a : Access) : Uses :=
  match a.role with
  | .read => s.put a.group .next
  | _ => s

/-- The uses just before an instruction, from those just after it. -/
def before (inst : List Access) (s : Uses) : Uses := inst.foldl read (inst.foldl kill (s.map NextUse.succ))

/-- The uses on entry to a sequence of instructions, and those just after each of them. -/
def scan (exit : Uses) : List (List Access) → Uses × List Uses
  | [] => (exit, [])
  | inst :: rest =>
    let (s, rows) := scan exit rest
    (before inst s, s :: rows)

end Uses

/-- A search under way: the states on entry to the blocks, and the blocks to be computed anew, the next one on top. -/
structure Scan (n : Nat) where
  entries : Cells n Uses
  todo : List (Fin n)

namespace Flow

variable {n : Nat}

/-- The uses at the end of block `b`. -/
def exitUses (f : Flow n) (entries : Cells n Uses) (b : Fin n) : Uses :=
  (f.graph.succs.get b).foldl (fun s t => s.join (entries.get t)) Uses.nothing

/-- The uses on entry to block `b`. -/
def entryUsesOf (f : Flow n) (entries : Cells n Uses) (b : Fin n) : Uses :=
  (f.code.get b).foldr Uses.before (f.exitUses entries b)

end Flow

namespace Scan

variable {n : Nat}

/-- Every block is to be computed, the last one first. -/
def initial (n : Nat) : Scan n := ⟨.all Uses.nothing, (List.finRange n).reverse⟩

/-- Puts `b` on the stack unless it is there. -/
def queue (todo : List (Fin n)) (b : Fin n) : List (Fin n) := if todo.contains b then todo else b :: todo

/-- Computes the state of the block on top of the stack. -/
def step (f : Flow n) (s : Scan n) : Scan n ⊕ Cells n Uses :=
  match s.todo with
  | [] => .inr s.entries
  | b :: todo =>
    let uses := f.entryUsesOf s.entries b
    if uses = s.entries.get b then .inl { s with todo }
    else .inl ⟨s.entries.put b uses, (f.graph.preds b).foldl queue todo⟩

end Scan

namespace Flow

variable {n : Nat}

/-- The uses on entry to all blocks. A change makes some of the `16 * n` uses sooner, each of them at most `maxDistance`
times, and puts at most `n` blocks on the stack. -/
def entryUses (f : Flow n) : Cells n Uses :=
  let bound := n + n * (n * (16 * (maxDistance + 1))) + 1
  (loop (Scan.step f) bound (.initial n)).getD (Scan.initial n).entries

/-- The uses just after every instruction, in program order. -/
def usesAfter (f : Flow n) : List Uses :=
  let entries := f.entryUses
  (List.finRange n).flatMap fun b => (Uses.scan (f.exitUses entries b) (f.code.get b)).2

end Flow

end ChillHints
