import ChillHints.Text.Numeral

/-!
# Next uses

A next use tells how far away the next read of a value is: the next instruction has distance 1, and `never` says
that the value is not read before it is overwritten, dropped, or the unit ends. Distances stop growing at `2 ^ 32 -
1`, so a distance never overstates how long a value is left alone.
-/

namespace ChillHints

/-- The largest distance. -/
def maxDistance : Nat := 0xffffffff

/-- A distance of at least one instruction. -/
structure Distance where
  val : Nat
  pos : 0 < val
  le_max : val ≤ maxDistance
deriving DecidableEq

instance : Repr Distance := ⟨fun d n => reprPrec d.val n⟩

namespace Distance

/-- The distance to the next instruction. -/
def one : Distance := ⟨1, by decide, by decide⟩

/-- The distance as seen from one instruction earlier. -/
def succ (d : Distance) : Distance :=
  ⟨min (d.val + 1) maxDistance, Nat.lt_min.mpr ⟨Nat.succ_pos _, by decide⟩, Nat.min_le_right _ _⟩

end Distance

/-- How far away the next read of a value is. -/
inductive NextUse where
  | after (dist : Distance)
  | never
deriving DecidableEq, Repr

namespace NextUse

/-- The next instruction reads the value. -/
def next : NextUse := after .one

/-- The use at distance `n`, if `n` is a distance. -/
def after? (n : Nat) : Option NextUse :=
  if h : 0 < n ∧ n ≤ maxDistance then some (after ⟨n, h.1, h.2⟩) else none

/-- The use as seen from one instruction earlier. -/
def succ : NextUse → NextUse
  | after d => after d.succ
  | never => never

def dist? : NextUse → Option Nat
  | after d => some d.val
  | never => none

/-- Is the value left alone for `n` instructions, or for good? -/
def atLeast (n : Nat) : NextUse → Bool
  | after d => n ≤ d.val
  | never => true

/-- The position in the order of next uses, in which `never` comes last. -/
def rank : NextUse → Nat
  | after d => d.val
  | never => maxDistance + 1

instance : LE NextUse := ⟨fun a b => a.rank ≤ b.rank⟩

instance : LT NextUse := ⟨fun a b => a.rank < b.rank⟩

instance (a b : NextUse) : Decidable (a ≤ b) := inferInstanceAs (Decidable (a.rank ≤ b.rank))

instance (a b : NextUse) : Decidable (a < b) := inferInstanceAs (Decidable (a.rank < b.rank))

/-- The sooner of two uses. -/
def sooner (a b : NextUse) : NextUse := if a ≤ b then a else b

/-- The number that stands for the use in a container, in which 0 is `never`. -/
def raw : NextUse → Nat
  | after d => d.val
  | never => 0

/-- The use of a number in a container, which is at most `maxDistance`. -/
def ofRaw (n : Nat) : NextUse := (after? n).getD never

def text : NextUse → String
  | after d => "in " ++ Numeral.decimal d.val
  | never => "never"

end NextUse

end ChillHints
