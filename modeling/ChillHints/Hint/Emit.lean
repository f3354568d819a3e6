import ChillHints.Hint.Table

/-!
# Choosing the hints

After an instruction, a general purpose register is listed if it may hold a value and that value is never used again
or not for at least `minDist` instructions. The stack pointer is not listed.
-/

namespace ChillHints

/-- The entry of `g`, if it is to be listed. -/
def UseRow.entry? (minDist : Nat) (r : UseRow) (g : Group) : Option HintEntry :=
  if r.holds.get g && (r.uses.get g).atLeast minDist then g.gpIdx?.map fun i => ⟨.gp, i, r.uses.get g⟩ else none

/-- The entries for what is known just after one instruction. -/
def UseRow.entries (minDist : Nat) (r : UseRow) : List HintEntry := Group.allGp.filterMap (r.entry? minDist)

namespace NextUseTable

/-- The hints that follow from the next uses. -/
def emit (t : NextUseTable) (minDist : Nat) : HintTable :=
  let hints := t.rows.zipIdx.map fun (r, i) => Hint.mk i (r.entries minDist)
  ⟨t.edition, t.instsLen, hints.filter fun h => !h.entries.isEmpty⟩

end NextUseTable

end ChillHints
