import ChillHints.Flow.Graph
import ChillHints.Proofs.Loop
import Mathlib.Logic.Relation

/-!
# The search finds what can be reached

`Walk.Sound` is the invariant of a search from `start`: no node has been seen twice, every node that has been seen
can be reached, and the successors of every visited node have been seen. A step visits one more node
(`Walk.Sound.step`), so the search ends, and then the visited nodes are exactly those that can be reached
(`mem_reachedFrom`).
-/

namespace ChillHints

namespace Graph

variable {n : Nat}

/-- There is an edge from `b` to `c`. -/
def Edge (g : Graph n) (b c : Fin n) : Prop := c ∈ g.succs.get b

/-- There is a path from `b` to `c`. -/
abbrev Reaches (g : Graph n) : Fin n → Fin n → Prop := Relation.ReflTransGen g.Edge

theorem mem_preds {g : Graph n} {b p : Fin n} : p ∈ g.preds b ↔ g.Edge p b := by
  simp [preds, Edge]

end Graph

namespace Walk

variable {n : Nat} {g : Graph n} {start : Fin n}

theorem seen_iff {w : Walk n} {b : Fin n} : w.seen b = true ↔ b ∈ w.visited ∨ b ∈ w.todo := by
  simp [seen]

theorem see_visited (w : Walk n) (b : Fin n) : (w.see b).visited = w.visited := by
  unfold see
  split <;> rfl

theorem seen_see {w : Walk n} {b c : Fin n} : (w.see b).seen c = true ↔ w.seen c = true ∨ c = b := by
  unfold see
  split
  · rename_i hb
    exact ⟨Or.inl, fun h => h.elim id fun e => e ▸ hb⟩
  · simp only [seen_iff, List.mem_cons]
    tauto

theorem see_nodup {w : Walk n} (h : (w.visited ++ w.todo).Nodup) (b : Fin n) :
    ((w.see b).visited ++ (w.see b).todo).Nodup := by
  unfold see
  split
  · exact h
  · rename_i hb
    rw [seen_iff, ← List.mem_append] at hb
    exact List.nodup_middle.mpr (List.nodup_cons.mpr ⟨hb, h⟩)

/-- Seeing all of a list of nodes. -/
theorem foldl_see (bs : List (Fin n)) (w : Walk n) (h : (w.visited ++ w.todo).Nodup) :
    let w' := bs.foldl see w
    w'.visited = w.visited ∧ (w'.visited ++ w'.todo).Nodup ∧
      ∀ c, w'.seen c = true ↔ w.seen c = true ∨ c ∈ bs := by
  induction bs generalizing w with
  | nil => exact ⟨rfl, h, by simp⟩
  | cons b bs ih =>
    obtain ⟨hv, hn, hs⟩ := ih (w.see b) (see_nodup h b)
    refine ⟨hv.trans (see_visited w b), hn, fun c => ?_⟩
    simp only [List.foldl_cons, hs, seen_see, List.mem_cons]
    tauto

/-- The invariant of a search from `start`. -/
structure Sound (g : Graph n) (start : Fin n) (w : Walk n) : Prop where
  nodup : (w.visited ++ w.todo).Nodup
  reaches : ∀ b, w.seen b = true → g.Reaches start b
  start : w.seen start = true
  closed : ∀ b ∈ w.visited, ∀ c, g.Edge b c → w.seen c = true

theorem sound_initial (g : Graph n) (start : Fin n) : Sound g start ⟨[], [start]⟩ where
  nodup := by simp
  reaches b hb := by
    simp only [seen_iff, List.not_mem_nil, List.mem_singleton, false_or] at hb
    rw [hb]
  start := by simp [seen_iff]
  closed b hb := by cases hb

/-- No more nodes are visited than there are. -/
theorem Sound.length_visited_le {w : Walk n} (h : Sound g start w) : w.visited.length ≤ n := by
  have := (List.nodup_append.mp h.nodup).1.length_le_card
  simpa using this

/-- A step keeps the invariant and visits one more node. -/
theorem Sound.step {w w' : Walk n} (h : Sound g start w) (hstep : Walk.step g w = .inl w') :
    Sound g start w' ∧ w'.visited.length = w.visited.length + 1 := by
  obtain ⟨visited, todo⟩ := w
  cases todo with
  | nil => simp [Walk.step] at hstep
  | cons b todo =>
    simp only [Walk.step, Sum.inl.injEq] at hstep
    have hnodup : ((visited ++ [b]) ++ todo).Nodup := by simpa using h.nodup
    obtain ⟨hv, hn, hs⟩ := foldl_see (g.succs.get b) ⟨visited ++ [b], todo⟩ hnodup
    rw [hstep] at hv hn hs
    have hseen : ∀ c, w'.seen c = true ↔ Walk.seen ⟨visited, b :: todo⟩ c = true ∨ g.Edge b c := by
      intro c
      rw [hs, seen_iff, seen_iff]
      simp only [List.mem_append, List.mem_cons, List.not_mem_nil, or_false, Graph.Edge]
      tauto
    have hb : g.Reaches start b := h.reaches b (by simp [seen_iff])
    refine ⟨⟨hn, fun c hc => ?_, (hseen _).mpr (Or.inl h.start), fun c hc d hd => ?_⟩, by simp [hv]⟩
    · rcases (hseen c).mp hc with hc | hc
      · exact h.reaches c hc
      · exact hb.tail hc
    · rw [hv] at hc
      rcases List.mem_append.mp hc with hc | hc
      · exact (hseen d).mpr (Or.inl (h.closed c hc d hd))
      · rw [List.mem_singleton.mp hc] at hd
        exact (hseen d).mpr (Or.inr hd)

/-- At the end of a search the visited nodes are those that can be reached. -/
theorem Sound.done {w : Walk n} {bs : List (Fin n)} (h : Sound g start w) (hstep : Walk.step g w = .inr bs)
    (b : Fin n) : b ∈ bs ↔ g.Reaches start b := by
  obtain ⟨visited, todo⟩ := w
  cases todo with
  | cons c todo => simp [Walk.step] at hstep
  | nil =>
    simp only [Walk.step, Sum.inr.injEq] at hstep
    subst hstep
    have hseen : ∀ c, Walk.seen ⟨visited, []⟩ c = true ↔ c ∈ visited := fun c => by simp [seen_iff]
    constructor
    · intro hb
      exact h.reaches b ((hseen b).mpr hb)
    · intro hb
      induction hb with
      | refl => exact (hseen _).mp h.start
      | tail _ hcd ih => exact (hseen _).mp (h.closed _ ih _ hcd)

end Walk

namespace Graph

variable {n : Nat}

/-- **The search is exact.** -/
theorem mem_reachedFrom (g : Graph n) (start b : Fin n) : b ∈ g.reachedFrom start ↔ g.Reaches start b := by
  obtain ⟨bs, hloop, hbs⟩ := loop_spec (I := Walk.Sound g start) (m := fun w => n - w.visited.length)
    (P := fun bs => ∀ b, b ∈ bs ↔ g.Reaches start b)
    (fun w w' hw hstep => by
      obtain ⟨hw', hlen⟩ := hw.step hstep
      have hle := hw'.length_visited_le
      exact ⟨hw', by omega⟩)
    (fun w bs hw hstep => hw.done hstep) (n + 1) ⟨[], [start]⟩ (Walk.sound_initial g start) (by simp)
  rw [reachedFrom, hloop]
  exact hbs b

end Graph

end ChillHints
