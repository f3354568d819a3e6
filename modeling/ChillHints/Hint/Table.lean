import ChillHints.NextUse.Table

/-!
# Hints

A hint lists registers that can be evicted just after an instruction, each with the use until which it is left
alone. A table has the hints of a unit: only instructions with something to evict have one, in ascending order, and
the entries of a hint ascend by class and number. `chillable` is the question an allocator asks.
-/

namespace ChillHints

/-- A register that can be evicted. The number of the stack pointer is 0. -/
structure HintEntry where
  cls : RegClass
  idx : UInt8
  /-- The register is not read before this. -/
  nextUse : NextUse
deriving DecidableEq, Repr

namespace HintEntry

/-- Is the entry about `r`? -/
def covers (x : HintEntry) : Reg → Bool
  | .gp i _ => x.cls == .gp && x.idx == i
  | .sp => x.cls == .sp

/-- Entries are ordered by class, then by number. -/
def key (x : HintEntry) : Nat := x.cls.code.toNat * 256 + x.idx.toNat

def text (x : HintEntry) : String :=
  let register := match x.cls with
    | .gp => "r" ++ Numeral.decimal x.idx.toNat
    | .sp => "sp"
  register ++ " (" ++ x.nextUse.text ++ ")"

end HintEntry

/-- What can be evicted just after the instruction at `iidx`. -/
structure Hint where
  iidx : Nat
  entries : List HintEntry
deriving DecidableEq, Repr

namespace Hint

/-- The entries of one class. -/
def ofClass (h : Hint) (c : RegClass) : List HintEntry := h.entries.filter (·.cls == c)

def text (h : Hint) : String :=
  "%" ++ Numeral.decimal h.iidx ++ ": chill " ++ ", ".intercalate (h.entries.map HintEntry.text)

end Hint

/-- The hints of a unit of `instsLen` instructions. -/
structure HintTable where
  edition : Edition
  instsLen : Nat
  hints : List Hint
deriving DecidableEq, Repr

namespace HintTable

/-- Searches the hints from `lo` up to `hi`, which ascend, by halving: `fuel` is at least as large as their number. -/
def bisect (hints : List Hint) (iidx : Nat) : Nat → Nat → Nat → Option Hint
  | 0, _, _ => none
  | fuel + 1, lo, hi =>
    if lo < hi then
      let mid := (lo + hi) / 2
      match hints[mid]? with
      | none => none
      | some h =>
        if h.iidx = iidx then some h
        else if h.iidx < iidx then bisect hints iidx fuel (mid + 1) hi
        else bisect hints iidx fuel lo mid
    else none

/-- The hint of the instruction at `iidx`. -/
def hint? (t : HintTable) (iidx : Nat) : Option Hint := bisect t.hints iidx t.hints.length 0 t.hints.length

def numHints (t : HintTable) : Nat := t.hints.length

def numEntries (t : HintTable) : Nat := (t.hints.flatMap Hint.entries).length

/-- If `r` can be evicted just after `iidx`, until when. All views of a register have the same answer, that of the first
member of its group, and a register that is not in the edition has none. -/
def chillable (t : HintTable) (iidx : Nat) (r : Reg) : Option NextUse :=
  match t.edition.check r, r.group? with
  | .ok (), some g => do
    let canonical ← g.members.head?
    let h ← t.hint? iidx
    let entry ← h.entries.find? (·.covers canonical)
    return entry.nextUse
  | _, _ => none

/-- One line for each hint. -/
def render (t : HintTable) : String := String.join (t.hints.map fun h => h.text ++ "\n")

end HintTable

end ChillHints
