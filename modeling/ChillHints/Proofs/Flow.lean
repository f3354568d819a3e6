import ChillHints.Flow.Basic
import ChillHints.Proofs.Reach
import ChillHints.Proofs.Structure

/-!
# Paths through a unit

`u.Arrives b h` says that there is a path of successor edges from the start of the unit to block `b`, and that `h` is
the list of the instructions that are executed on it. The analyses see a unit through its flow: `u.IsFlow f` says
what the parts of the flow mean for the unit, and every structured unit has such a flow (`exists_flow`). In it,
edges are those of the unit, and the blocks marked as reached are those at which some path arrives.

`Inst.Reads` and `Inst.Ends` say what an instruction does to a group.
-/

namespace ChillHints

/-! ## Reads and ends of values -/

namespace Inst

/-- A register of `g` is read. -/
def Reads (i : Inst) (g : Group) : Prop := ∃ r ∈ i.reads, r.group? = some g

/-- A register of `g` is written or dropped. -/
def Ends (i : Inst) (g : Group) : Prop := ∃ r ∈ i.kills, r.group? = some g

instance (i : Inst) (g : Group) : Decidable (i.Reads g) := inferInstanceAs (Decidable (∃ r ∈ i.reads, _))

instance (i : Inst) (g : Group) : Decidable (i.Ends g) := inferInstanceAs (Decidable (∃ r ∈ i.kills, _))

variable {i : Inst} {g : Group} {e : Edition}

theorem mem_accesses {a : Access} : a ∈ i.accesses e ↔
    ⟨a.role, a.reg⟩ ∈ i.operands ∧ a.reg.group? = some a.group ∧ a.bits = e.bits a.reg.width := by
  unfold accesses
  rw [List.mem_filterMap]
  constructor
  · rintro ⟨op, hop, ha⟩
    obtain ⟨h, hg, rfl⟩ := Option.map_eq_some_iff.mp ha
    exact ⟨hop, hg, rfl⟩
  · rintro ⟨hop, hg, hbits⟩
    refine ⟨_, hop, Option.map_eq_some_iff.mpr ⟨a.group, hg, ?_⟩⟩
    rw [← hbits]

theorem mem_reads {r : Reg} : r ∈ i.reads ↔ ⟨.read, r⟩ ∈ i.operands := by
  simp only [reads, List.mem_map, List.mem_filter, beq_iff_eq]
  constructor
  · rintro ⟨⟨role, reg⟩, ⟨hop, rfl⟩, rfl⟩; exact hop
  · intro h; exact ⟨_, ⟨h, rfl⟩, rfl⟩

theorem mem_kills {r : Reg} : r ∈ i.kills ↔ ∃ role, role ≠ .read ∧ ⟨role, r⟩ ∈ i.operands := by
  simp only [kills, List.mem_map, List.mem_filter, bne_iff_ne]
  constructor
  · rintro ⟨⟨role, reg⟩, ⟨hop, hrole⟩, rfl⟩; exact ⟨role, hrole, hop⟩
  · rintro ⟨role, hrole, h⟩; exact ⟨_, ⟨h, hrole⟩, rfl⟩

/-- The accesses that read a group. -/
theorem exists_read_access : (∃ a ∈ i.accesses e, a.role = .read ∧ a.group = g) ↔ i.Reads g := by
  constructor
  · rintro ⟨a, ha, hrole, rfl⟩
    obtain ⟨hop, hg, _⟩ := mem_accesses.mp ha
    rw [hrole] at hop
    exact ⟨a.reg, mem_reads.mpr hop, hg⟩
  · rintro ⟨r, hr, hg⟩
    exact ⟨⟨.read, r, g, e.bits r.width⟩, mem_accesses.mpr ⟨mem_reads.mp hr, hg, rfl⟩, rfl, rfl⟩

/-- The accesses that end the value of a group. -/
theorem exists_end_access : (∃ a ∈ i.accesses e, a.role ≠ .read ∧ a.group = g) ↔ i.Ends g := by
  constructor
  · rintro ⟨a, ha, hrole, rfl⟩
    obtain ⟨hop, hg, _⟩ := mem_accesses.mp ha
    exact ⟨a.reg, mem_kills.mpr ⟨a.role, hrole, hop⟩, hg⟩
  · rintro ⟨r, hr, hg⟩
    obtain ⟨role, hrole, hop⟩ := mem_kills.mp hr
    exact ⟨⟨role, r, g, e.bits r.width⟩, mem_accesses.mpr ⟨hop, hg, rfl⟩, hrole, rfl⟩

end Inst

/-! ## Edges and paths -/

namespace CompiledUnit

variable {u : CompiledUnit} {b c : Nat}

/-- There is a path from the start of the unit to block `b` on which the instructions `h` are executed. -/
inductive Arrives (u : CompiledUnit) : Nat → List Inst → Prop
  | entry : Arrives u 0 []
  | edge {b c : Nat} {h : List Inst} : Arrives u b h → c ∈ u.successors b → Arrives u c (h ++ u.blockAt b)

/-- The exits of a terminator are its targets. -/
theorem exits_targets {inst : Inst} {ts : List Nat} (h : inst.exits? = some ts) :
    inst.isTerm = true ∧ ∀ t ∈ ts, ∃ l ∈ inst.targets, t = l.toNat := by
  cases inst with
  | br target => cases h; exact ⟨rfl, fun t ht => ⟨target, by simp [Inst.targets], by simpa using ht⟩⟩
  | condbr cond yes no =>
    refine ⟨rfl, fun t ht => ?_⟩
    simp only [Inst.exits?, Option.some.injEq] at h
    have : t = yes.toNat ∨ t = no.toNat := by
      rw [← h] at ht
      split at ht <;> simp at ht <;> tauto
    rcases this with rfl | rfl
    · exact ⟨yes, by simp [Inst.targets], rfl⟩
    · exact ⟨no, by simp [Inst.targets], rfl⟩
  | ret val => cases h; exact ⟨rfl, fun t ht => by cases ht⟩
  | _ => cases h

/-- The successors of a block whose last instruction is a terminator. -/
theorem successors_of_exits {inst : Inst} {ts : List Nat} (hlast : (u.blockAt b).getLast? = some inst)
    (h : inst.exits? = some ts) : u.successors b = ts := by
  unfold successors
  rw [show u.blocks.getD b [] = u.blockAt b from rfl, hlast, Option.bind_some, h]

/-- The successors of a block that does not end with a terminator. -/
theorem successors_of_no_exits (h : ∀ inst, (u.blockAt b).getLast? = some inst → inst.exits? = none) :
    u.successors b = if b + 1 < u.size then [b + 1] else [] := by
  unfold successors
  rw [show u.blocks.getD b [] = u.blockAt b from rfl]
  cases hlast : (u.blockAt b).getLast? with
  | none => rfl
  | some inst => rw [Option.bind_some, h inst hlast]

/-- All successors exist. -/
theorem Structured.successor_lt (hu : u.Structured) (hc : c ∈ u.successors b) : c < u.size := by
  by_cases h : ∃ inst ts, (u.blockAt b).getLast? = some inst ∧ inst.exits? = some ts
  · obtain ⟨inst, ts, hlast, hts⟩ := h
    rw [successors_of_exits hlast hts] at hc
    obtain ⟨l, hl, rfl⟩ := (exits_targets hts).2 c hc
    rw [List.getLast?_eq_getElem?] at hlast
    exact hu.target_lt (show u.At b _ inst from hlast) hl
  · rw [successors_of_no_exits] at hc
    · split at hc
      · rename_i hb; rw [List.mem_singleton.mp hc]; exact hb
      · cases hc
    · intro inst hlast
      cases hts : inst.exits? with
      | none => rfl
      | some ts => exact absurd ⟨inst, ts, hlast, hts⟩ h

theorem Arrives.lt (hu : u.Structured) {h : List Inst} (hb : u.Arrives b h) : b < u.size := by
  cases hb with
  | entry => exact u.entry.isLt
  | edge _ hc => exact hu.successor_lt hc

/-- The edges of the graph are those between blocks that exist. -/
theorem edge_graph {b c : Fin u.size} : u.graph.Edge b c ↔ c.val ∈ u.successors b := by
  simp only [Graph.Edge, graph, Cells.get_tabulate, List.mem_filterMap, Option.dite_none_right_eq_some,
    Option.some.injEq]
  constructor
  · rintro ⟨t, ht, hlt, rfl⟩; exact ht
  · intro h; exact ⟨c, h, c.isLt, rfl⟩

/-- The blocks that can be reached are those at which some path arrives. -/
theorem Structured.reaches_iff (hu : u.Structured) (b : Fin u.size) :
    u.graph.Reaches u.entry b ↔ ∃ h, u.Arrives b h := by
  constructor
  · intro hb
    induction hb with
    | refl => exact ⟨[], .entry⟩
    | tail _ hcd ih =>
      obtain ⟨h, hc⟩ := ih
      exact ⟨_, .edge hc (edge_graph.mp hcd)⟩
  · rintro ⟨h, hb⟩
    obtain ⟨b, hlt⟩ := b
    change u.Arrives b h at hb
    induction hb with
    | entry => exact .refl
    | edge hc hd ih => exact (ih (hc.lt hu)).tail (edge_graph.mpr hd)

/-! ## The flow of a unit -/

/-- What the parts of the flow `f` are in the unit. -/
structure IsFlow (u : CompiledUnit) (f : Flow u.size) : Prop where
  code : ∀ b, f.code.get b = (u.blockAt b).map (Inst.accesses u.edition)
  edge : ∀ b c, f.graph.Edge b c ↔ c.val ∈ u.successors b
  reached : ∀ b, f.reached.get b = true ↔ ∃ h, u.Arrives b h

theorem Structured.stray?_eq_none (hu : u.Structured) (b : Nat) : u.stray? b = none := by
  rw [stray?, List.find?_eq_none]
  intro t ht
  have := hu.successor_lt ht
  simpa using this

theorem Structured.firstForeign?_eq_none (hu : u.Structured) : u.firstForeign? = none := by
  rw [firstForeign?, List.findSome?_eq_none_iff]
  intro op hop
  obtain ⟨inst, hinst, hop⟩ := List.mem_flatMap.mp hop
  obtain ⟨i, hi⟩ := List.getElem?_of_mem hinst
  obtain ⟨b, k, inst', rfl, hat⟩ := exists_at (List.getElem?_eq_some_iff.mp hi).1
  rw [hat.getElem?_insts] at hi
  cases hi
  obtain ⟨g, hg⟩ := hu.group hat hop
  simp only [Reg.group, hg]

theorem Structured.predecessors_eq (hu : u.Structured) : u.predecessors = .ok (Cells.tabulate u.graph.preds) := by
  have : u.firstStray? = none := List.findSome?_eq_none_iff.mpr fun b _ => hu.stray?_eq_none b
  simp only [predecessors, this]

/-- The blocks that are marked are those at which some path arrives. -/
theorem Structured.exists_reachable (hu : u.Structured) :
    ∃ marks, u.reachable = .ok marks ∧ ∀ b, marks.get b = true ↔ ∃ h, u.Arrives b h := by
  have hstray : (u.searchOrder.findSome? fun b => u.stray? b.val) = none :=
    List.findSome?_eq_none_iff.mpr fun b _ => hu.stray?_eq_none b
  refine ⟨Cells.tabulate fun b => u.searchOrder.contains b, by simp only [reachable, hstray], fun b => ?_⟩
  rw [Cells.get_tabulate, List.contains_iff_mem, searchOrder, Graph.mem_reachedFrom]
  exact hu.reaches_iff b

/-- **Every structured unit has a flow.** -/
theorem Structured.exists_flow (hu : u.Structured) : ∃ f, u.flow = .ok f ∧ u.IsFlow f := by
  obtain ⟨marks, hmarks, hreached⟩ := hu.exists_reachable
  refine ⟨_, by rw [flow, hmarks, hu.predecessors_eq, hu.firstForeign?_eq_none]; rfl, ?_, ?_, hreached⟩
  · intro b
    exact Cells.get_tabulate _ b
  · intro b c
    exact edge_graph

end CompiledUnit

end ChillHints
