import ChillHints.Machine.Store

/-!
# A store that spills

Only four values are in registers at a time. When a fifth is needed, the one whose last read or write is the longest
ago is moved to the spill slot of its group, and it is reloaded when it is read. A clock that ticks at every read
and write tells which one that is.
-/

namespace ChillHints

/-- A value in a register. -/
structure Resident where
  group : Group
  value : UInt64
  /-- The clock at the last read or write. -/
  stamp : Nat
deriving DecidableEq, Repr

structure Spilling where
  phys : Cells 4 (Option Resident)
  spill : Cells 16 (Option UInt64)
  clock : Nat
  /-- How many values have been reloaded. -/
  reloads : Nat
deriving DecidableEq

namespace Spilling

def empty : Spilling := ⟨.all none, .all none, 0, 0⟩

/-- The register that holds the value of `g`. -/
def find? (s : Spilling) (g : Group) : Option (Fin 4) :=
  (List.finRange 4).find? fun i => (s.phys.get i).any (·.group == g)

/-- The first register that holds nothing. -/
def vacant? (s : Spilling) : Option (Fin 4) := (List.finRange 4).find? fun i => (s.phys.get i).isNone

/-- The stamp in register `i`. -/
def stamp (s : Spilling) (i : Fin 4) : Nat := ((s.phys.get i).map Resident.stamp).getD 0

/-- The register whose stamp is the least. -/
def oldest (s : Spilling) : Fin 4 :=
  [1, 2, 3].foldl (fun best i => if s.stamp i < s.stamp best then i else best) 0

/-- Moves the value in register `i` to the spill slot of its group. -/
def evictPhys (s : Spilling) (i : Fin 4) : Spilling :=
  match s.phys.get i with
  | some r => { s with phys := s.phys.put i none, spill := s.spill.put r.group (some r.value) }
  | none => s

/-- Makes a register vacant, if none is. -/
def makeRoom (s : Spilling) : Fin 4 × Spilling :=
  match s.vacant? with
  | some i => (i, s)
  | none => (s.oldest, s.evictPhys s.oldest)

/-- Puts a value of `g` into a register, the one that holds `g` if there is one. -/
def place (s : Spilling) (g : Group) (v : UInt64) : Spilling :=
  let s := { s with clock := s.clock + 1 }
  let (i, s) := match s.find? g with
    | some i => (i, s)
    | none => s.makeRoom
  { s with phys := s.phys.put i (some ⟨g, v, s.clock⟩) }

/-- Moves the value of `g` to its spill slot, if it is in a register. -/
def evict (s : Spilling) (g : Group) : Spilling :=
  match s.find? g with
  | some i => s.evictPhys i
  | none => s

/-- The value of `g`, which is afterwards in a register. -/
def read (s : Spilling) (g : Group) : Except Fault (UInt64 × Spilling) :=
  match (s.find? g).bind fun i => (s.phys.get i).map fun r => (i, r.value) with
  | some (i, v) =>
    let clock := s.clock + 1
    .ok (v, { s with clock, phys := s.phys.put i (some ⟨g, v, clock⟩) })
  | none =>
    match s.spill.get g with
    | some v => .ok (v, { s with spill := s.spill.put g none, reloads := s.reloads + 1 }.place g v)
    | none => .error (.noValue g)

def write (s : Spilling) (g : Group) (v : UInt64) : Spilling := { s with spill := s.spill.put g none }.place g v

def discard (s : Spilling) (g : Group) : Spilling :=
  let phys := match s.find? g with
    | some i => s.phys.put i none
    | none => s.phys
  { s with phys, spill := s.spill.put g none }

instance : RegisterStore Spilling where
  read _ g s := s.read g
  write g _ v s := s.write g v
  discard g s := s.discard g
  afterInst _ _ s := .ok s

end Spilling

end ChillHints
