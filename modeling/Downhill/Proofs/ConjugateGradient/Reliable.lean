import Downhill.Direction.ConjugateGradient
import Downhill.Proofs.Direction.Reliable

/-! Conjugate gradients never divide by zero at a gradient that is not zero. The gradient that is
remembered is that of an iterate which was not the last one, so it is not zero either; and the slope
that divides a first step is that of a direction which descends. -/
namespace Downhill
variable {K M : Type} [ExactField K] {n : ℕ}

open Exact

namespace ConjugateGradient
variable {last : Memory (Exact K) (Vector (Exact K) n)}
  {st : State (Exact K) (Vector (Exact K) n)} {g d : Fin n → K}

/-- A step that is remembered was made along a vector of the field, from a gradient other than
zero. -/
def Sensible (st : State (Exact K) (Vector (Exact K) n)) : Prop :=
  ∀ last, st.memory = some last →
    ∃ g d : Fin n → K, g ≠ 0 ∧ last.gradient = lift g ∧ last.direction = lift d

theorem sensible_of_none (h : st.memory = none) : Sensible st := by
  intro last hlast
  rw [h] at hlast
  cases hlast

theorem beta_fletcherReeves (hgradient : last.gradient = lift g) (g' : Fin n → K) :
    beta .fletcherReeves last (lift g') =
      if g = 0 then .error .zeroDivision else .ok (number (g' ⬝ᵥ g' / (g ⬝ᵥ g))) := by
  simp only [beta, hgradient, Space.difference?_vector, Space.product?_vector, dot_lift, bind,
    Except.bind]
  split_ifs with hzero
  · rw [hzero, dotProduct_zero, quotient_zero]
  · rw [quotient_number (dotProduct_self_pos hzero).ne']

/-- The rule of Hestenes and Stiefel has no fault. -/
theorem exists_beta_hestenesStiefel (hgradient : last.gradient = lift g)
    (hdirection : last.direction = lift d) (g' : Fin n → K) :
    ∃ b, beta .hestenesStiefel last (lift g') = .ok (number b) := by
  by_cases hacross : d ⬝ᵥ (g' - g) = 0
  · refine ⟨0, ?_⟩
    simp [beta, hgradient, hdirection, hacross, bind, Except.bind, pure, Except.pure]
  · refine ⟨max 0 (g' ⬝ᵥ (g' - g) / (d ⬝ᵥ (g' - g))), ?_⟩
    simp only [beta, hgradient, hdirection, Space.difference?_vector, Space.product?_vector,
      lift_sub, dot_lift, bind, Except.bind, zero_eq, number_beq, hacross, decide_false,
      Bool.false_eq_true, if_false, number_div hacross, larger_number, pure, Except.pure]

/-- The share of the last direction is a number. -/
theorem exists_beta (rule : BetaRule) (hg : g ≠ 0) (hgradient : last.gradient = lift g)
    (hdirection : last.direction = lift d) (g' : Fin n → K) :
    ∃ b, beta rule last (lift g') = .ok (number b) := by
  have hself : g ⬝ᵥ g ≠ 0 := (dotProduct_self_pos hg).ne'
  cases rule with
  | fletcherReeves => exact ⟨_, (beta_fletcherReeves hgradient g').trans (if_neg hg)⟩
  | polakRibiere =>
    refine ⟨max 0 (g' ⬝ᵥ (g' - g) / (g ⬝ᵥ g)), ?_⟩
    simp [beta, hgradient, quotient_number hself, bind, Except.bind, pure, Except.pure]
  | hestenesStiefel => exact exists_beta_hestenesStiefel hgradient hdirection g'

/-- A direction that turns the last one by a number, where no restart is due. -/
theorem perform_direction_of_beta {s : ConjugateGradient} {b : K}
    {l : Ledger (Exact K) (Vector (Exact K) n)} (hmemory : st.memory = some last)
    (hperiod : ¬ st.interval ≤ st.sinceRestart) (hdirection : last.direction = lift d)
    (hbeta : beta s.rule last (lift g) = .ok (number b)) :
    (s.direction (lift g)).perform st l =
      if 0 < b then
        if g ⬝ᵥ (-g + b • d) < 0 then (.ok (lift (-g + b • d)), st, l)
        else (restart (lift g) .notDescending).perform st l
      else (restart (lift g) .noConjugacy).perform st l := by
  have hsum : Space.sum? (-lift g) (number b * last.direction) = .ok (lift (-g + b • d)) := by
    rw [hdirection, Space.sum?_vector, neg_lift, number_mul_lift, lift_add]
  have hproduct : Space.product? (lift g) (lift (-g + b • d)) =
      .ok (number (g ⬝ᵥ (-g + b • d))) := by
    rw [Space.product?_vector, dot_lift]
  simp only [direction, Act.perform_bind, Act.perform_state, hmemory, if_neg hperiod,
    Act.perform_ofExcept, hbeta, zero_eq, number_lt]
  by_cases hb : 0 < b
  · simp only [if_pos hb, Act.perform_bind, Act.perform_ofExcept, hsum, hproduct, number_lt]
    by_cases hdown : g ⬝ᵥ (-g + b • d) < 0
    · simp only [if_pos hdown, Act.perform_pure]
    · simp only [if_neg hdown]
  · simp only [if_neg hb]

/-- There is always a direction, and it is a vector of the field. -/
theorem ensures_direction (s : ConjugateGradient) (g : Fin n → K) :
    Ensures (fun t => Sensible t.1) (s.direction (lift g) : Act _ (Exact K) _ _)
      (Surely fun v t => Sensible t.1 ∧ ∃ d, v = lift d) := by
  have hrestart : ∀ reason, Ensures (fun t => Sensible t.1)
      (restart (lift g) reason : Act (State (Exact K) (Vector (Exact K) n)) _ _ _)
      (Surely fun v t => Sensible t.1 ∧ ∃ d, v = lift d) :=
    fun reason t ht => ⟨ht, -g, neg_lift g⟩
  refine Act.ensures_state_bind fun st hst => ?_
  cases hmemory : st.memory with
  | none => exact .pure fun t ht => ⟨ht, -g, neg_lift g⟩
  | some last =>
    obtain ⟨g₀, d₀, hne, hgradient, hdirection⟩ := hst last hmemory
    obtain ⟨b, hbeta⟩ := exists_beta s.rule hne hgradient hdirection g
    refine .ite (fun _ => hrestart _) fun _ => Act.ensures_ofExcept_bind hbeta ?_
    refine .ite (fun _ => ?_) fun _ => hrestart _
    refine Act.ensures_ofExcept_bind (Space.sum?_vector _ _) ?_
    refine Act.ensures_ofExcept_bind (Space.product?_vector _ _) ?_
    refine .ite (fun _ => .pure fun t ht => ⟨ht, -g + b • d₀, ?_⟩) fun _ => hrestart _
    rw [hdirection, neg_lift, number_mul_lift, lift_add]

variable (s : ConjugateGradient) (o : Oracle (Exact K) (Vector (Exact K) n) M)

section FirstStep
variable [SoundRoot K]

/-- The first step divides by the length of the gradient or by the slope. -/
theorem exists_firstStep (st : State (Exact K) (Vector (Exact K) n)) (hg : g ≠ 0)
    (hd : g ⬝ᵥ d < 0) :
    ∃ a, firstStep st (lift g) (lift d) = .ok a ∧ 0 < a ∧ Scalar.isFinite a = true := by
  rw [firstStep]
  cases hmemory : st.memory with
  | none =>
    obtain ⟨a, ha, hstep⟩ := exists_cautiousStep hg
    exact ⟨number a, hstep, ha, rfl⟩
  | some last =>
    have hslope : quotient (last.alpha * st.slope) (number (g ⬝ᵥ d)) =
        .ok (last.alpha * st.slope / number (g ⬝ᵥ d)) := by
      simp [quotient, hd.ne]
    simp only [Space.product?_vector, dot_lift, hslope, bind, Except.bind]
    split_ifs with hguess
    · obtain ⟨x, hx, hnumber⟩ := exists_of_pos hguess.1 hguess.2
      refine ⟨number (min 1 x), ?_, lt_min one_pos hx, rfl⟩
      rw [hnumber, one_eq, smaller_number]
      rfl
    · exact ⟨1, rfl, one_pos, rfl⟩

theorem reliable : (s.strategy : Strategy _ _ _ M).Reliable o Sensible where
  compute x g hx := by
    have h := ensures_direction s g
    rw [← hx] at h
    exact Surely.mildly (Surely.imp h fun _ _ ht => ht.1)
  reset t _ := sensible_of_none rfl
  initialStep g d hg hd := by
    refine Act.ensures_state_bind fun st _ => ?_
    obtain ⟨a, hstep, ha⟩ := exists_firstStep st hg hd
    refine Act.ensures_ofExcept_bind hstep (.pure fun t ht => ⟨ht, ?_⟩)
    rintro _ ⟨⟩
    exact ha
  update step g g' d alpha hg := by
    refine Act.ensures_ofExcept_bind (Space.difference?_vector _ _) ?_
    refine Surely.bind (R := fun _ t => Sensible t.1) (fun t _ => ?_) fun _ => ?_
    · rintro _ ⟨⟩
      exact ⟨g, d, hg, by simp, rfl⟩
    · exact Act.ensures_ofExcept_bind (Space.product?_vector _ _) fun t ht => ht

/-- At a gradient of zero the direction starts afresh, and the first step divides by its length. -/
theorem stalls : (s.strategy : Strategy _ _ _ M).Stalls o Sensible (fun st => st.memory = none)
    .zeroDivision where
  raised := rfl
  compute x _ hx := by
    have h := ensures_direction s (0 : Fin n → K)
    rw [← hx] at h
    exact h
  reset t _ := rfl
  initialStep := by
    refine Act.ensures_state_bind
      (I := fun st : State (Exact K) (Vector (Exact K) n) => st.memory = none) fun st hst => ?_
    have hstep : firstStep st (lift (0 : Fin n → K)) (lift (0 : Fin n → K)) =
        .error .zeroDivision := by
      rw [firstStep, hst]
      exact cautiousStep_zero
    rw [hstep]
    exact fun _ _ => .inl rfl

end FirstStep

end ConjugateGradient

end Downhill
