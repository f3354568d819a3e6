import ChillHints.Flow.Loop

/-!
# Directed graphs

The nodes are `0 … n-1` and `succs` lists the ends of the edges from each. `preds` reads the edges backwards. `Walk`
is a depth-first search with a stack of nodes still to be visited: a node goes onto the stack when it is first seen.
-/

namespace ChillHints

/-- A graph on `n` nodes. -/
structure Graph (n : Nat) where
  succs : Cells n (List (Fin n))

namespace Graph

variable {n : Nat}

/-- The nodes with an edge to `b`, in ascending order. -/
def preds (g : Graph n) (b : Fin n) : List (Fin n) := (List.finRange n).filter fun p => (g.succs.get p).contains b

end Graph

/-- A search under way: the nodes visited, first to last, and those seen but not visited, the next one on top. -/
structure Walk (n : Nat) where
  visited : List (Fin n)
  todo : List (Fin n)

namespace Walk

variable {n : Nat}

/-- Has `b` been seen? -/
def seen (w : Walk n) (b : Fin n) : Bool := w.visited.contains b || w.todo.contains b

/-- Puts `b` on the stack if it has not been seen. -/
def see (w : Walk n) (b : Fin n) : Walk n := if w.seen b then w else { w with todo := b :: w.todo }

/-- Visits the node on top of the stack. -/
def step (g : Graph n) (w : Walk n) : Walk n ⊕ List (Fin n) :=
  match w.todo with
  | [] => .inr w.visited
  | b :: todo => .inl ((g.succs.get b).foldl see ⟨w.visited ++ [b], todo⟩)

end Walk

namespace Graph

variable {n : Nat}

/-- The nodes that can be reached from `start`, in the order of the search. Each step but the last visits a new node,
so `n + 1` steps are enough. -/
def reachedFrom (g : Graph n) (start : Fin n) : List (Fin n) :=
  (loop (Walk.step g) (n + 1) ⟨[], [start]⟩).getD []

end Graph

end ChillHints
