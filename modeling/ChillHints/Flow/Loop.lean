import ChillHints.Cells

/-!
# Loops

A loop repeats a step until the step gives a result. `loop` counts the steps down, so that a loop that needs too
many gives `none`; each use of it comes with a bound that is large enough. Two kinds of steps are shared: `sweep`
computes the states of all blocks anew, one after the other, and `sweepStep` ends when a sweep changes nothing.
-/

namespace ChillHints

/-- Repeats `step` until it gives a result, at most `fuel` times. -/
def loop {σ τ : Type} (step : σ → σ ⊕ τ) : Nat → σ → Option τ
  | 0, _ => none
  | fuel + 1, s =>
    match step s with
    | .inl s' => loop step fuel s'
    | .inr t => some t

/-- Sets the state of every block to what `f` says, in order: a block sees the new states of the blocks before it and
the old states of the others. -/
def sweep {α : Type} {n : Nat} (f : Fin n → Cells n α → α) (v : Cells n α) : Cells n α :=
  (List.finRange n).foldl (fun v b => v.put b (f b v)) v

/-- Sweeps once more, unless that changes nothing. -/
def sweepStep {α : Type} [DecidableEq α] {n : Nat} (f : Fin n → Cells n α → α) (v : Cells n α) :
    Cells n α ⊕ Cells n α :=
  let w := sweep f v
  if w = v then .inr v else .inl w

end ChillHints
