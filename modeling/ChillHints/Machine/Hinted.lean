import ChillHints.Hint.Table
import ChillHints.Machine.Spilling

/-!
# A store that follows hints

After every instruction the store does what the hint of the instruction says: a value that is never used again is
thrown away, any other is moved to its spill slot. It watches over the hints: reading a value that was thrown away,
or reading one before the step that its hint named, is a fault.
-/

namespace ChillHints

structure Hinted where
  table : HintTable
  store : Spilling
  /-- The groups whose value was thrown away and not written since. -/
  dead : Cells 16 Bool
  /-- For a chilled group, the earliest step at which it may be read. -/
  cold : Cells 16 (Option Nat)
  /-- How many values have been thrown away. -/
  discards : Nat

namespace Hinted

def new (t : HintTable) : Hinted := ⟨t, .empty, .all false, .all none, 0⟩

def read (step : Nat) (g : Group) (s : Hinted) : Except Fault (UInt64 × Hinted) :=
  if s.dead.get g then .error (.readAfterForever g step)
  else
    match s.cold.get g with
    | some earliest =>
      if step < earliest then .error (.readEarly g step earliest)
      else (s.store.read g).map fun (v, store) => (v, { s with store, cold := s.cold.put g none })
    | none => (s.store.read g).map fun (v, store) => (v, { s with store })

def write (g : Group) (v : UInt64) (s : Hinted) : Hinted :=
  { s with store := s.store.write g v, dead := s.dead.put g false, cold := s.cold.put g none }

/-- Does what an entry says, after `step`. Entries go by their number alone, whatever their class. -/
def follow (step : Nat) (s : Hinted) (x : HintEntry) : Except Fault Hinted := do
  let g ← (Reg.gp x.idx .w64).group
  match x.nextUse with
  | .never => return { s with store := s.store.discard g, dead := s.dead.put g true, discards := s.discards + 1 }
  | .after d => return { s with store := s.store.evict g, cold := s.cold.put g (some (step + d.val)) }

def afterInst (step iidx : Nat) (s : Hinted) : Except Fault Hinted :=
  match s.table.hint? iidx with
  | some h => h.entries.foldlM (follow step) s
  | none => .ok s

instance : RegisterStore Hinted where
  read := read
  write g _ v s := s.write g v
  discard g s := { s with store := s.store.discard g }
  afterInst := afterInst

end Hinted

end ChillHints
