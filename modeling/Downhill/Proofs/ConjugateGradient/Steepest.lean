import Downhill.Proofs.ConjugateGradient.Reliable

/-! Conjugate gradients that start afresh after every step: steepest descent. The first step of a
search repeats the decrease of the last one to first order, so a lower bound on the length of a step
times the square of the gradient is carried from one iteration to the next. -/
open Matrix

namespace Downhill
variable {K M : Type} [ExactField K] {n : ℕ}

open Exact

namespace ConjugateGradient
variable {δ : K} {g : Fin n → K} {st : State (Exact K) (Vector (Exact K) n)}

/-- The last step, if there was one, promised a decrease of `δ` or more, and directions start afresh
after one step. -/
structure Primed (δ : K) (st : State (Exact K) (Vector (Exact K) n)) : Prop where
  interval : st.interval = 1
  promised : ∀ last, st.memory = some last → ∃ e, last.alpha * st.slope = number (-e) ∧ δ ≤ e

/-- Moreover the last step was made since directions started afresh. -/
structure Due (δ : K) (st : State (Exact K) (Vector (Exact K) n)) : Prop extends Primed δ st where
  counted : ∀ last, st.memory = some last → 1 ≤ st.sinceRestart

/-- Before the first step. -/
theorem due_of_none (hinterval : st.interval = 1) (hmemory : st.memory = none) : Due δ st where
  interval := hinterval
  promised last hlast := by cases hmemory.symm.trans hlast
  counted last hlast := by cases hmemory.symm.trans hlast

/-- All directions are those of steepest descent. -/
theorem surely_direction_due (s : ConjugateGradient) (g : Fin n → K) :
    Ensures (fun t => Due δ t.1) (s.direction (lift g) : Act _ (Exact K) _ _)
      (Surely fun v t => v = lift (-g) ∧ Primed δ t.1) := by
  refine Act.ensures_state_bind fun st hst => ?_
  cases hmemory : st.memory with
  | none => exact .pure fun t ht => ⟨neg_lift g, ht.toPrimed⟩
  | some last =>
    have hperiod : st.interval ≤ st.sinceRestart := hst.interval.trans_le (hst.counted last hmemory)
    refine .ite (fun _ => ?_) fun hno => absurd hperiod hno
    exact fun t ht => ⟨neg_lift g, ht.interval, ht.promised⟩

section FirstStep
variable {x y : K}

theorem le_min_one_mul (h : δ ≤ y) (h' : δ ≤ x * y) : δ ≤ min 1 x * y := by
  rcases min_choice 1 x with hmin | hmin <;> rw [hmin]
  · exact h.trans_eq (one_mul y).symm
  · exact h'

variable [TrueRoot K]

/-- The first step of a search promises a decrease of `δ` as well, unless the gradient is small. -/
theorem Primed.exists_firstStep (h : Primed δ st) (hδ : 0 < δ)
    (hnorm : δ ≤ ExactField.root (g ⬝ᵥ g)) (hsquare : δ ≤ g ⬝ᵥ g) :
    ∃ a, firstStep st (lift g) (lift (-g)) = .ok (number a) ∧ 0 < a ∧ δ ≤ a * (g ⬝ᵥ g) ∧ a ≤ 1 := by
  have hself : 0 < g ⬝ᵥ g := hδ.trans_le hsquare
  have hg : g ≠ 0 := by
    rintro rfl
    rw [dotProduct_zero] at hself
    exact hself.false
  have hroot := root_dotProduct_pos hg
  rw [firstStep]
  cases hmemory : st.memory with
  | none =>
    refine ⟨_, cautiousStep_lift hg, lt_min one_pos (one_div_pos.mpr hroot),
      le_min_one_mul hsquare ?_, min_le_left 1 _⟩
    refine hnorm.trans_eq (mul_left_cancel₀ hroot.ne' ?_)
    rw [← mul_assoc, mul_one_div_cancel hroot.ne', one_mul, TrueRoot.root_mul_root _ hself.le]
  | some last =>
    obtain ⟨e, he, hle⟩ := h.promised last hmemory
    have hpos : 0 < e / (g ⬝ᵥ g) := div_pos (hδ.trans_le hle) hself
    have hguess : quotient (number (-e)) (number (g ⬝ᵥ -g)) = .ok (number (e / (g ⬝ᵥ g))) := by
      rw [dotProduct_neg, quotient_number (neg_neg_of_pos hself).ne, neg_div_neg_eq]
    have hfirst : 0 < number (e / (g ⬝ᵥ g)) ∧ Scalar.isFinite (number (e / (g ⬝ᵥ g))) = true :=
      ⟨number_lt.mpr hpos, rfl⟩
    refine ⟨min 1 (e / (g ⬝ᵥ g)), ?_, lt_min one_pos hpos, le_min_one_mul hsquare ?_,
      min_le_left 1 _⟩
    · simp only [he, Space.product?_vector, dot_lift, bind, Except.bind, hguess, if_pos hfirst]
      exact congrArg Except.ok smaller_number
    · rwa [div_mul_cancel₀ _ hself.ne']

end FirstStep

/-- A step that kept its promise. -/
theorem surely_record_steepest (g g' : Fin n → K) {t : K} (ht : δ ≤ t * (g ⬝ᵥ g)) :
    Ensures (fun τ => Primed δ τ.1)
      (record (lift g' - lift g) (lift g') (number t) (lift (-g)) : Act _ (Exact K) _ _)
      (Surely fun _ τ => Due δ τ.1) := by
  refine Act.ensures_ofExcept_bind (Space.difference?_vector _ _) ?_
  refine Surely.bind (R := fun _ τ => τ.1.interval = 1 ∧ ∀ last, τ.1.memory = some last →
    last.alpha = number t) (fun τ hτ => ⟨hτ.interval, by rintro _ ⟨⟩; rfl⟩) fun _ => ?_
  refine Act.ensures_ofExcept_bind (Space.product?_vector _ _) fun τ hτ => ?_
  refine ⟨⟨hτ.1, fun last hlast => ⟨t * (g ⬝ᵥ g), ?_, ht⟩⟩, fun _ _ => Nat.le_add_left 1 _⟩
  have hslope : dot (lift g' - (lift g' - lift g)) (lift (-g)) = number (-(g ⬝ᵥ g)) := by
    rw [lift_sub, lift_sub, sub_sub_cancel, dot_lift, dotProduct_neg]
  rw [hτ.2 last hlast, ← mul_neg, ← number_mul, ← hslope]
  rfl

end ConjugateGradient

end Downhill
