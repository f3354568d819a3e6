import ChillHints.Flow.Loop
import Mathlib.Algebra.Order.BigOperators.Group.Finset

/-!
# Loops that end at a fixed point

A loop whose steps keep an invariant and lower a measure gives a result (`loop_spec`). The measure of cells is the
sum of the weights of their values (`weigh`); it falls when the cells go down in an order in which going down makes
a value lighter (`weigh_lt`).

Sweeps are such loops. If the function that computes the state of a block is monotone, and a first sweep goes down,
then every sweep goes down (`Descent.sweep_below`), and the loop ends at cells that no sweep changes, which means
that every block has the state computed for it (`Descent.loop_sweepStep`).
-/

namespace ChillHints

/-- The loop rule: an invariant and a measure give a result. -/
theorem loop_spec {σ τ : Type} {step : σ → σ ⊕ τ} {I : σ → Prop} {P : τ → Prop} {m : σ → Nat}
    (hnext : ∀ s s', I s → step s = .inl s' → I s' ∧ m s' < m s)
    (hdone : ∀ s t, I s → step s = .inr t → P t) :
    ∀ fuel s, I s → m s < fuel → ∃ t, loop step fuel s = some t ∧ P t
  | 0, _, _, hm => absurd hm (Nat.not_lt_zero _)
  | fuel + 1, s, hs, hm => by
    cases hstep : step s with
    | inl s' =>
      obtain ⟨hs', hlt⟩ := hnext s s' hs hstep
      obtain ⟨t, ht, hp⟩ := loop_spec hnext hdone fuel s' hs' (by omega)
      exact ⟨t, by rw [loop, hstep]; exact ht, hp⟩
    | inr t => exact ⟨t, by rw [loop, hstep], hdone s t hs hstep⟩

/-! ## Weights -/

section Weights

variable {α : Type} {n : Nat} {le : α → α → Prop} {w : α → Nat}

/-- The sum of the weights of all cells. -/
def weigh (w : α → Nat) (c : Cells n α) : Nat := ∑ i : Fin n, w (c.get i)

/-- Every cell of `c` is below the same cell of `d`. -/
def Below (le : α → α → Prop) (c d : Cells n α) : Prop := ∀ i, le (c.get i) (d.get i)

theorem weigh_le {B : Nat} {c : Cells n α} (h : ∀ i, w (c.get i) ≤ B) : weigh w c ≤ n * B := by
  have := Finset.sum_le_card_nsmul Finset.univ (fun i => w (c.get i)) B (fun i _ => h i)
  simpa [weigh] using this

/-- Cells that go down, and do not stay as they are, get lighter. -/
theorem weigh_lt {c d : Cells n α} (hw : ∀ i, le (c.get i) (d.get i) → c.get i ≠ d.get i → w (c.get i) < w (d.get i))
    (hle : Below le c d) (hne : c ≠ d) : weigh w c < weigh w d := by
  have hcell : ∀ i, w (c.get i) ≤ w (d.get i) := by
    intro i
    by_cases h : c.get i = d.get i
    · rw [h]
    · exact Nat.le_of_lt (hw i (hle i) h)
  obtain ⟨i, hi⟩ : ∃ i, c.get i ≠ d.get i := by
    by_contra hall
    exact hne (Cells.ext_get fun i => by by_contra h; exact hall ⟨i, h⟩)
  exact Finset.sum_lt_sum (fun i _ => hcell i) ⟨i, Finset.mem_univ i, hw i (hle i) hi⟩

/-- Where values are ordered by rank, and are known by their ranks, the ranks are weights. -/
theorem weigh_rank_lt {rank : α → Nat} (hinj : ∀ {x y}, rank x = rank y → x = y) {c d : Cells n α}
    (hle : Below (fun x y => rank x ≤ rank y) c d) (hne : c ≠ d) : weigh rank c < weigh rank d :=
  weigh_lt (fun _ hle hne => Nat.lt_of_le_of_ne hle fun he => hne (hinj he)) hle hne

/-- Putting into a cell what is below it goes down. -/
theorem below_put (hrefl : ∀ x, le x x) {c : Cells n α} {i : Fin n} {x : α} (h : le x (c.get i)) :
    Below le (c.put i x) c := by
  intro j
  rw [Cells.get_put]
  split
  · rename_i hij; rw [← hij]; exact h
  · exact hrefl _

theorem Cells.put_get (c : Cells n α) (i : Fin n) : c.put i (c.get i) = c := by
  apply Cells.ext_get
  intro j
  rw [Cells.get_put]
  split
  · rename_i hij; rw [hij]
  · rfl

end Weights

/-! ## Sweeps -/

section Sweeps

variable {α : Type} {n : Nat} {f : Fin n → Cells n α → α}

/-- A sweep over `bs` leaves the cells of other blocks alone. -/
theorem get_foldl_put {bs : List (Fin n)} {b : Fin n} (hb : b ∉ bs) (v : Cells n α) :
    (bs.foldl (fun v b => v.put b (f b v)) v).get b = v.get b := by
  induction bs generalizing v with
  | nil => rfl
  | cons c bs ih =>
    have hcb : c ≠ b := fun h => hb (h ▸ List.mem_cons_self)
    rw [List.foldl_cons, ih (fun h => hb (List.mem_cons_of_mem _ h)), Cells.get_put_of_ne _ hcb]

/-- A sweep over `bs` that changes nothing finds every block of `bs` in the state computed for it. -/
theorem eq_of_foldl_put {bs : List (Fin n)} (hbs : bs.Nodup) {v : Cells n α}
    (h : bs.foldl (fun v b => v.put b (f b v)) v = v) : ∀ b ∈ bs, f b v = v.get b := by
  induction bs with
  | nil => intro b hb; cases hb
  | cons c bs ih =>
    obtain ⟨hc, hbs⟩ := List.nodup_cons.mp hbs
    rw [List.foldl_cons] at h
    have hcv : f c v = v.get c := by
      have := get_foldl_put (f := f) hc (v.put c (f c v))
      rw [h, Cells.get_put_self] at this
      exact this.symm
    rw [hcv, Cells.put_get] at h
    intro b hb
    rcases List.mem_cons.mp hb with rfl | hb
    · exact hcv
    · exact ih hbs h b hb

theorem eq_of_sweep {v : Cells n α} (h : sweep f v = v) (b : Fin n) : f b v = v.get b :=
  eq_of_foldl_put (List.nodup_finRange n) h b (List.mem_finRange b)

end Sweeps

/-- What makes the computation of states go down: an order in which `f` is monotone, weights that fall with it, and a
property `ok` of the states that `f` keeps and that the weights may rely on. -/
structure Descent {α : Type} {n : Nat} (f : Fin n → Cells n α → α) (le : α → α → Prop) (ok : Fin n → α → Prop)
    (w : α → Nat) : Prop where
  refl : ∀ x, le x x
  trans : ∀ {x y z}, le x y → le y z → le x z
  mono : ∀ b {v v'}, Below le v v' → le (f b v) (f b v')
  keeps : ∀ b v, (∀ c, ok c (v.get c)) → ok b (f b v)
  strict : ∀ b {x y}, ok b x → le x y → x ≠ y → w x < w y

namespace Descent

variable {α : Type} {n : Nat} {f : Fin n → Cells n α → α} {le : α → α → Prop} {ok : Fin n → α → Prop} {w : α → Nat}

/-- All states are `ok`, and computing one of them anew goes down. -/
structure Falls (f : Fin n → Cells n α → α) (le : α → α → Prop) (ok : Fin n → α → Prop) (v : Cells n α) :
    Prop where
  ok : ∀ b, ok b (v.get b)
  below : ∀ b, le (f b v) (v.get b)

/-- One state computed anew. -/
theorem put_falls (D : Descent f le ok w) {v : Cells n α} (hv : Falls f le ok v) (b : Fin n) :
    Falls f le ok (v.put b (f b v)) ∧ Below le (v.put b (f b v)) v := by
  have hbelow : Below le (v.put b (f b v)) v := below_put D.refl (hv.below b)
  refine ⟨⟨fun c => ?_, fun c => ?_⟩, hbelow⟩
  · rw [Cells.get_put]
    split
    · rename_i hbc; rw [← hbc]; exact D.keeps b v hv.ok
    · exact hv.ok c
  · have hc : le (f c (v.put b (f b v))) (f c v) := D.mono c hbelow
    rw [Cells.get_put]
    split
    · rename_i hbc; rw [hbc] at hc ⊢; exact hc
    · exact D.trans hc (hv.below c)

/-- A sweep goes down. -/
theorem sweep_below (D : Descent f le ok w) {v : Cells n α} (hv : Falls f le ok v) :
    Falls f le ok (sweep f v) ∧ Below le (sweep f v) v := by
  unfold sweep
  generalize List.finRange n = bs
  induction bs generalizing v with
  | nil => exact ⟨hv, fun _ => D.refl _⟩
  | cons b bs ih =>
    obtain ⟨hput, hle⟩ := D.put_falls hv b
    obtain ⟨hrest, hle'⟩ := ih hput
    exact ⟨hrest, fun i => D.trans (hle' i) (hle i)⟩

/-- A sweep that changes something goes down, and what there is gets lighter. -/
theorem sweepStep_falls [DecidableEq α] (D : Descent f le ok w) {v v' : Cells n α} (hv : Falls f le ok v)
    (hstep : sweepStep f v = .inl v') : Falls f le ok v' ∧ Below le v' v ∧ weigh w v' < weigh w v := by
  simp only [sweepStep] at hstep
  split at hstep
  · cases hstep
  · rename_i hne
    cases hstep
    obtain ⟨hfalls, hle⟩ := D.sweep_below hv
    exact ⟨hfalls, hle, weigh_lt (fun i => D.strict i (hfalls.ok i)) hle hne⟩

/-- **Sweeps reach a fixed point**, in which every state is the one computed for its block. -/
theorem loop_sweepStep [DecidableEq α] (D : Descent f le ok w) {v : Cells n α} (hv : Falls f le ok v) {B : Nat}
    (hB : ∀ b, w (v.get b) ≤ B) :
    ∃ v', loop (sweepStep f) (n * B + 1) v = some v' ∧ (∀ b, f b v' = v'.get b) ∧ ∀ b, ok b (v'.get b) := by
  refine loop_spec (I := Falls f le ok) (P := fun v' => (∀ b, f b v' = v'.get b) ∧ ∀ b, ok b (v'.get b))
    (m := weigh w) ?_ ?_ _ v hv (Nat.lt_succ_of_le (weigh_le hB))
  · intro s s' hs hstep
    obtain ⟨hs', -, hlt⟩ := D.sweepStep_falls hs hstep
    exact ⟨hs', hlt⟩
  · intro s t hs hstep
    simp only [sweepStep] at hstep
    split at hstep
    · rename_i heq
      cases hstep
      exact ⟨eq_of_sweep heq, hs.ok⟩
    · cases hstep

end Descent

end ChillHints
