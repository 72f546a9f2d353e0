import Downhill.Proofs.ConjugateGradient.Steepest
import Downhill.Proofs.Descent.Advance
import Downhill.Proofs.LineSearch.SafeStep
import Downhill.Proofs.Problem.Given
import Downhill.Proofs.Problem.QuadraticDifference
import Downhill.Proofs.Solver.Equipped

/-! Steepest descent converges. Along its negative gradient the objective falls by as much as a
bound on its bend lets it; so the backtracking search has a safe step, and every iteration but the
last decreases the value by a fixed amount. Where values are bounded from below, that leaves room
for a known number of iterations. -/
open Matrix

namespace Downhill
variable {K : Type} [ExactField K] {n : ℕ}

open Exact

/-- Against `g` the function `f` falls at least as one that bends by `bend`. -/
def FallsAlong (f : (Fin n → K) → K) (g : (Fin n → K) → Fin n → K) (bend : K) : Prop :=
  ∀ x t, 0 ≤ t → f (x - t • g x) ≤
    f x - t * (g x ⬝ᵥ g x) + bend / (2 : ℕ) * t ^ 2 * (g x ⬝ᵥ g x)

/-- The length of a step that decreases the value sufficiently for the constant `c`. -/
def safeStep (c bend : K) : K := (2 : ℕ) * (1 - c) / bend

/-- While the gradient is longer than `τ`, the length of a step times the square of the gradient is
at least this. -/
def leastPromise (c ρ bend τ : K) : K :=
  min τ (min (τ ^ 2) ((2 : ℕ) * ρ * (1 - c) * τ ^ 2 / bend))

/-- The constants `c` and `ρ` of a backtracking search, which comes down below the safe step but not
to one that is too short. -/
structure Backtracking.Suits (s : Backtracking (Exact K)) (c ρ bend : K) : Prop where
  c1 : s.c1 = number c
  c1_pos : 0 < c
  c1_lt : c < 1
  rho : s.rho = number ρ
  rho_pos : 0 < ρ
  maxIter : 1 ≤ s.maxIter
  alphaMin : s.alphaMin ≤ number (2 * ρ * (1 - c) / bend)
  cap : ρ ^ (s.maxIter.toNat - 1) ≤ safeStep c bend
  bend_pos : 0 < bend

section Amounts
variable {s : Backtracking (Exact K)} {f : (Fin n → K) → K} {g : (Fin n → K) → Fin n → K}
  {c ρ bend τ : K}

theorem FallsAlong.decreases (h : FallsAlong f g bend) (hbend : 0 < bend) {t : K} (ht : 0 < t)
    (hsafe : t ≤ safeStep c bend) (x : Fin n → K) :
    f (x - t • g x) ≤ f x + c * t * -(g x ⬝ᵥ g x) := by
  have hshare : bend / 2 * t ≤ 1 - c := by
    rw [safeStep, Nat.cast_ofNat, le_div_iff₀ hbend] at hsafe
    linarith
  have hfall := mul_le_mul_of_nonneg_right hshare
    (mul_nonneg ht.le (dotProduct_self_nonneg (g x)))
  linarith [h x t ht.le]

variable (hs : s.Suits c ρ bend)
include hs

theorem Backtracking.Suits.reachesBelow {a : K} (ha : 0 < a) (hone : a ≤ 1) :
    s.ReachesBelow c ρ (safeStep c bend) a where
  c1 := hs.c1
  c1_pos := hs.c1_pos
  rho := hs.rho
  rho_pos := hs.rho_pos
  maxIter := hs.maxIter
  alphaMin := by
    have h := hs.alphaMin
    rwa [show 2 * ρ * (1 - c) / bend = ρ * safeStep c bend by rw [safeStep]; ring] at h
  first_pos := ha
  cap := (mul_le_of_le_one_left (pow_nonneg hs.rho_pos.le _) hone).trans hs.cap

theorem Backtracking.Suits.leastPromise_pos (hτ : 0 < τ) : 0 < leastPromise c ρ bend τ := by
  have hrest := sub_pos.mpr hs.c1_lt
  have hrho := hs.rho_pos
  have hbend := hs.bend_pos
  refine lt_min hτ (lt_min (pow_pos hτ 2) ?_)
  positivity

/-- The least promise where the gradient is longer than `τ`. -/
theorem Backtracking.Suits.leastPromise_le [TrueRoot K] {v : Fin n → K} (hτ : 0 < τ)
    (hv : τ < ExactField.root (v ⬝ᵥ v)) :
    leastPromise c ρ bend τ ≤ ExactField.root (v ⬝ᵥ v) ∧ leastPromise c ρ bend τ ≤ v ⬝ᵥ v ∧
      leastPromise c ρ bend τ ≤ ρ * safeStep c bend * (v ⬝ᵥ v) := by
  have hsquare : τ ^ 2 ≤ v ⬝ᵥ v := by
    have h := mul_self_le_mul_self hτ.le hv.le
    rwa [TrueRoot.root_mul_root _ (dotProduct_self_nonneg v), ← pow_two] at h
  have hsafe : 0 ≤ ρ * safeStep c bend :=
    mul_nonneg hs.rho_pos.le
      (div_nonneg (mul_nonneg zero_le_two (sub_nonneg.mpr hs.c1_lt.le)) hs.bend_pos.le)
  refine ⟨(min_le_left _ _).trans hv.le, ((min_le_right _ _).trans (min_le_left _ _)).trans hsquare,
    ((min_le_right _ _).trans (min_le_right _ _)).trans ?_⟩
  refine Eq.trans_le ?_ (mul_le_mul_of_nonneg_left hsquare hsafe)
  rw [safeStep]
  ring

end Amounts

theorem withinTolerance_lift (v : Fin n → K) (tolerance : K) :
    withinTolerance (norm (lift v)) (number tolerance) =
      decide (ExactField.root (v ⬝ᵥ v) ≤ max tolerance 1e-12) := by
  have hlarger : Scalar.larger (number tolerance) leastTolerance =
      (number (max tolerance 1e-12) : Exact K) := larger_number
  rw [withinTolerance, hlarger, norm_lift]
  exact decide_eq_decide.mpr number_le

/-- A problem with the ordinary end test, whose objective falls against its gradient, together with
a search and a tolerance, by which a run ends where the gradient is no longer than `τ`. -/
structure Falling (p : Problem (Exact K) (Vector (Exact K) n) (Matrix (Exact K) n))
    (s : Backtracking (Exact K)) (config : Config (Exact K)) (f : (Fin n → K) → K)
    (g : (Fin n → K) → Fin n → K) (c ρ bend τ : K) : Prop where
  given : p.Given f g
  test : p.converged = gradientTest
  falls : FallsAlong f g bend
  suits : s.Suits c ρ bend
  tolerance : ∃ t, config.tolerance = number t ∧ τ = max t 1e-12

namespace ConjugateGradient

/-- The run of steepest descent with a backtracking search. -/
def steepest (p : Problem (Exact K) (Vector (Exact K) n) (Matrix (Exact K) n)) (rule : BetaRule)
    (s : Backtracking (Exact K)) (config : Config (Exact K)) :
    Descent (State (Exact K) (Vector (Exact K) n)) Unit (Exact K) (Vector (Exact K) n)
      (Matrix (Exact K) n) :=
  ⟨p, strategy ⟨rule, some 1⟩, (LineSearch.backtracking s).machine, config⟩

section Reached
variable (f : (Fin n → K) → K) (g : (Fin n → K) → Fin n → K) (c δ τ : K) (x : Fin n → K)

/-- A step from `x` against the gradient that keeps the promise of `δ` and decreases the value by
the share `c` of it. -/
def Descends (step : Step (Exact K) (Vector (Exact K) n)) : Prop :=
  ∃ t, step.alpha = number t ∧ step.reached = iterateAt f g (x - t • g x) ∧
    δ ≤ t * (g x ⬝ᵥ g x) ∧ f (x - t • g x) ≤ f x - c * δ

/-- After `k` iterations from `x`, none of them the last one, each has decreased the value by its
share. -/
def Sunk (k : ℕ) (t : Progress (Exact K) (Vector (Exact K) n)) : Prop :=
  ∃ z, t = ⟨iterateAt f g z, k⟩ ∧ τ < ExactField.root (g z ⬝ᵥ g z) ∧ k * (c * δ) ≤ f x - f z

theorem along_steepest (t : K) :
    (⟨iterateAt f g x, lift (-g x)⟩ : Ray _ _).along (number t) = lift (x - t • g x) := by
  change lift x + number t * lift (-g x) = _
  rw [number_mul_lift, lift_add, smul_neg, sub_eq_add_neg]

end Reached

end ConjugateGradient

namespace Falling
variable {p : Problem (Exact K) (Vector (Exact K) n) (Matrix (Exact K) n)}
  {s : Backtracking (Exact K)} {config : Config (Exact K)} {f : (Fin n → K) → K}
  {g : (Fin n → K) → Fin n → K} {c ρ bend τ : K} {x : Fin n → K}
  (h : Falling p s config f g c ρ bend τ)
include h

open ConjugateGradient

theorem safe (hx : g x ≠ 0) :
    (⟨iterateAt f g x, lift (-g x)⟩ : Ray _ _).Safe (p.work n false) c (safeStep c bend) (f x)
      (-(g x ⬝ᵥ g x)) (fun t => f (x - t • g x)) fun t => g (x - t • g x) where
  start := rfl
  slope := by rw [Space.inner_vector, iterateAt, dot_lift, dotProduct_neg]
  neg := neg_neg_of_pos (dotProduct_self_pos hx)
  value t := by
    rw [along_steepest]
    exact h.given.replies_value false _
  gradient t := by
    rw [along_steepest]
    exact h.given.replies_gradient false _
  decreases t ht hsafe := h.falls.decreases h.suits.bend_pos ht hsafe x

theorem tolerance_pos : 0 < τ := by
  obtain ⟨t, -, rfl⟩ := h.tolerance
  exact lt_max_of_lt_right (by norm_num)

/-- The end test asks whether the gradient is longer than `τ`. -/
theorem verdict (rule : BetaRule) (y : Iterate (Exact K) (Vector (Exact K) n)) (z : Fin n → K) :
    (steepest p rule s config).verdict y (iterateAt f g z) =
      .ok (decide (ExactField.root (g z ⬝ᵥ g z) ≤ τ)) := by
  obtain ⟨t, htolerance, rfl⟩ := h.tolerance
  rw [Descent.verdict, show (steepest p rule s config).problem.converged = gradientTest from h.test,
    show (steepest p rule s config).config.tolerance = number t from htolerance]
  exact congrArg Except.ok (withinTolerance_lift (g z) t)

variable [TrueRoot K]

/-- Where the gradient is longer than `τ` an iteration goes against it. -/
theorem advances (rule : BetaRule) (hx : τ < ExactField.root (g x ⬝ᵥ g x)) :
    let δ := leastPromise c ρ bend τ
    (steepest p rule s config).Advances (p.work n false) (.backtracking s) (iterateAt f g x)
      (lift (-g x)) (Due δ) (Primed δ)
      (fun asked => ∃ a, asked = some (number a) ∧ 0 < a ∧ δ ≤ a * (g x ⬝ᵥ g x) ∧ a ≤ 1)
      (Descends f g c δ x) fun _ => Due δ := by
  intro δ
  obtain ⟨hnorm, hsquare, hsafe⟩ := h.suits.leastPromise_le h.tolerance_pos hx
  have hδ : 0 < δ := h.suits.leastPromise_pos h.tolerance_pos
  have hself : 0 < g x ⬝ᵥ g x := hδ.trans_le hsquare
  have hne : g x ≠ 0 := by
    intro hzero
    rw [hzero, dotProduct_zero] at hself
    exact hself.false
  refine ⟨surely_direction_due _ (g x), allFinite_lift _, ?_, ?_, rfl, ?_, ?_⟩
  · rw [(h.safe hne).slope]
    exact number_lt.mpr (h.safe hne).neg
  · refine Act.ensures_state_bind fun st hst => ?_
    obtain ⟨a, hfirst, ha⟩ := hst.exists_firstStep hδ hnorm hsquare
    exact Act.ensures_ofExcept_bind hfirst (.pure fun t ht => ⟨⟨a, rfl, ha⟩, ht⟩)
  · rintro _ ⟨a, rfl, ha, hpromise, hone⟩
    have hsearch := Backtracking.replies_search_safe (h.suits.reachesBelow ha hone) (h.safe hne)
    refine hsearch.mono ?_
    rintro step ⟨t, hsuccess, halpha, hreached, ht, hvalue, hlong⟩
    have hkept : δ ≤ t * (g x ⬝ᵥ g x) := by
      refine le_trans ?_ (mul_le_mul_of_nonneg_right hlong hself.le)
      rw [min_mul_of_nonneg _ _ hself.le]
      exact le_min hpromise hsafe
    rw [along_steepest] at hreached
    refine ⟨⟨hsuccess, ?_⟩, t, halpha, hreached, hkept, ?_⟩
    · rw [Descent.finiteStep, hreached]
      simp
    · have hfall := mul_le_mul_of_nonneg_left hkept h.suits.c1_pos.le
      linarith
  · rintro step ⟨t, halpha, hreached, hkept, -⟩
    rw [halpha, hreached]
    exact surely_record_steepest (g x) _ hkept

/-- An iteration ends the run at a short gradient, or has decreased the value. -/
theorem ensures_iterate (rule : BetaRule) (x : Fin n → K) (k : ℕ)
    (t : Progress (Exact K) (Vector (Exact K) n)) :
    let δ := leastPromise c ρ bend τ
    Ensures (fun σ => Sunk f g c δ τ x k t ∧ Due δ σ.1.strategy)
      ((steepest p rule s config).iterate (p.work n false) t)
      (Rounded (fun t σ => Sunk f g c δ τ x (k + 1) t ∧ Due δ σ.1.strategy)
        (fun stop _ => stop.status = .converged) fun _ _ => False) := by
  intro δ
  rintro σ ⟨⟨z, rfl, hfar, hsunk⟩, hdue⟩
  have hdecides : ∀ step, Descends f g c δ z step → ∃ done,
      (steepest p rule s config).verdict (iterateAt f g z) step.reached = .ok done := by
    rintro step ⟨t, -, hreached, -⟩
    exact ⟨_, hreached ▸ h.verdict rule _ _⟩
  have hkeeps : Keeps (Due δ) σ.1.trace σ := ⟨hdue, rfl⟩
  have hround := (h.advances rule hfar).surely_iterate k hdecides σ hkeeps
  rcases hr : (((steepest p rule s config).iterate (p.work n false) ⟨iterateAt f g z, k⟩).run.run
    σ).1 with e | r <;> rw [hr] at hround
  · exact hround.elim
  · obtain ⟨step, done, ⟨t, -, hreached, -, hfall⟩, hdone, rfl, hdue, -⟩ := hround
    rw [hreached, h.verdict] at hdone
    cases done with
    | true => exact rfl
    | false =>
      refine ⟨⟨z - t • g z, by rw [hreached], ?_, ?_⟩, hdue⟩
      · simpa using hdone
      · push_cast
        linarith

/-- The iterations from an open start end the run, or all of them were made. -/
theorem surely_pursue (rule : BetaRule) (x : Fin n → K) :
    let δ := leastPromise c ρ bend τ
    Ensures (fun σ => Due δ σ.1.strategy)
      ((steepest p rule s config).pursue (p.work n false) (iterateAt f g x))
      (Surely fun stop _ => stop.status = .converged ∨ stop.status = .iterationCap ∧
        ∃ z, config.maxIters * (c * δ) ≤ f x - f z) := by
  intro δ
  refine Act.ensures_ofExcept_bind (h.verdict rule _ x) ?_
  refine .ite (fun _ => .pure fun _ _ => .inl rfl) fun hfar => ?_
  have hround : ∀ k < config.maxIters, ∀ t, _ := fun k _ t => h.ensures_iterate rule x k t
  have hloop := Ensures.upTo_counted hround ⟨iterateAt f g x, 0⟩
  refine Ensures.mono (P := fun σ => Sunk f g c δ τ x 0 ⟨iterateAt f g x, 0⟩ ∧ Due δ σ.1.strategy)
    ?_ (fun σ hσ => ⟨⟨x, rfl, by simpa using hfar, by simp⟩, hσ⟩) fun _ _ h => h
  refine Ensures.bind hloop (fun r => ?_) fun _ _ h => h
  cases r with
  | inr stop => exact .pure fun _ h => .inl h
  | inl t => exact .pure fun _ ⟨⟨z, ht, _, hsunk⟩, _⟩ => .inr ⟨rfl, z, hsunk⟩

/-- What becomes of the run. -/
theorem exists_run (rule : BetaRule) (x : Fin n → K) :
    let δ := leastPromise c ρ bend τ
    ∃ outcome, ((steepest p rule s config).run (lift x) (fresh ⟨rule, some 1⟩) ()).result =
        .ok outcome ∧ (outcome.status = .converged ∨ outcome.status = .iterationCap ∧
          ∃ z, config.maxIters * (c * δ) ≤ f x - f z) := by
  intro δ
  obtain ⟨stop, t, hrun, hstop⟩ := Descent.exists_run_of_surely (d := steepest p rule s config)
    (fresh ⟨rule, some 1⟩) () (h.given.opened rfl x) rfl (fun _ => due_of_none rfl rfl)
    (h.surely_pursue rule x)
  exact ⟨_, congrArg Record.result hrun, hstop⟩

end Falling

namespace ConvexQuadratic
variable (q : ConvexQuadratic K n)

theorem given : q.objective.problem.Given q.value q.gradient where
  value x := congrArg Except.ok (q.value_objective x)
  hasGradient := rfl
  gradient x := congrArg Except.ok (q.gradient_objective x)

/-- A quadratic function bends as its form does. -/
theorem fallsAlong {bend : K} (h : ∀ v, v ⬝ᵥ q.matrix *ᵥ v ≤ bend * (v ⬝ᵥ v)) :
    FallsAlong q.value q.gradient bend := by
  intro x t _
  have hform := mul_le_mul_of_nonneg_left (h (q.gradient x)) (sq_nonneg t)
  rw [q.value_sub, dotProduct_smul, mulVec_smul, dotProduct_smul, smul_dotProduct]
  simp only [smul_eq_mul]
  linarith

end ConvexQuadratic

namespace ConjugateGradient
variable [TrueRoot K]

/-- Steepest descent with backtracking converges within a known number of iterations. This is for
every problem with the ordinary end test and a gradient against which the objective falls at least
as one that bends by `bend`; for conjugate gradients under every rule that start afresh after every
step; and for a backtracking search that may come down to where every step is safe. From every start
the run returns, neither with a failed search nor with a numerical error, and if values have a lower
bound and the cap on the iterations is high enough, it converges. -/
theorem steepest_converges {p : Problem (Exact K) (Vector (Exact K) n) (Matrix (Exact K) n)}
    {f : (Fin n → K) → K} {g : (Fin n → K) → Fin n → K} {bend tolerance c ρ : K} {maxIters : ℤ}
    {s : Backtracking (Exact K)} (hp : p.Given f g) (htest : p.converged = gradientTest)
    (hdimension : ∀ k, p.dimension = some k → (n : ℤ) = k) (hbend : 0 < bend)
    (hfalls : ∀ x t, 0 ≤ t → f (x - t • g x) ≤
      f x - t * (g x ⬝ᵥ g x) + bend / 2 * t ^ 2 * (g x ⬝ᵥ g x))
    (hcheck : s.check = .ok ()) (hc : s.c1 = number c) (hρ : s.rho = number ρ)
    (hcap : ρ ^ (s.maxIter.toNat - 1) ≤ 2 * (1 - c) / bend)
    (hmin : s.alphaMin ≤ number (2 * ρ * (1 - c) / bend)) (htolerance : 0 < tolerance)
    (hmax : 0 ≤ maxIters) (rule : BetaRule) (history : Bool) (x : Fin n → K) :
    let τ := max tolerance 1e-12
    let δ := min τ (min (τ ^ 2) (2 * ρ * (1 - c) * τ ^ 2 / bend))
    let choices : Choices (Exact K) (Vector (Exact K) n) (Matrix (Exact K) n) :=
      ⟨maxIters, number tolerance, some (LineSearch.backtracking s).searcher, history⟩
    ∃ outcome, (nonlinearCG rule.name (some 1) choices p (lift x)).result = .ok outcome ∧
      outcome.status ≠ .searchFailed ∧ outcome.status ≠ .numericalError ∧
      ∀ low, (∀ y, low ≤ f y) → (f x - low) / (c * δ) < maxIters →
        outcome.status = .converged := by
  intro τ δ choices
  obtain ⟨hc1, hrho⟩ := Backtracking.check_eq_ok hcheck
  rw [hc] at hc1
  rw [hρ] at hrho
  have hsuits : s.Suits c ρ bend :=
    { c1 := hc, c1_pos := number_lt.mp hc1.1, c1_lt := number_lt.mp hc1.2, rho := hρ,
      rho_pos := number_lt.mp hrho.1, maxIter := Backtracking.maxIter_of_check hcheck,
      alphaMin := hmin, cap := hcap,
      bend_pos := hbend }
  let config : Config (Exact K) := ⟨maxIters.toNat, number tolerance, history⟩
  have hfalling : Falling p s config f g c ρ bend τ :=
    ⟨hp, htest, hfalls, hsuits, tolerance, rfl, rfl⟩
  have hm : (Method.conjugateGradient rule.name (some 1)).equip choices =
      .ok (config, .conjugateGradient ⟨rule, some 1⟩, .moreThuente (.standard 0.1)) := by
    refine bind_eq_ok_iff.mpr ⟨config, ?_, ?_⟩
    · exact (if_neg hmax.not_gt).trans (if_pos (number_lt.mpr htolerance))
    · refine bind_eq_ok_iff.mpr ⟨.conjugateGradient ⟨rule, some 1⟩, ?_, rfl⟩
      rw [Method.plan, make, BetaRule.ofName?_name]
      rfl
  obtain ⟨outcome, hrun, hstatus⟩ := hfalling.exists_run rule x
  have hresult : (nonlinearCG rule.name (some 1) choices p (lift x)).result = .ok outcome :=
    (Method.minimize_eq_run hm (Problem.accept_vector hdimension (lift x))).1.trans hrun
  refine ⟨outcome, hresult, ?_, ?_, fun low hlow hlarge => ?_⟩
  · rcases hstatus with h | ⟨h, -⟩ <;> rw [h] <;> decide
  · rcases hstatus with h | ⟨h, -⟩ <;> rw [h] <;> decide
  · obtain hdone | ⟨-, z, hsunk⟩ := hstatus
    · exact hdone
    · have hshare : 0 < c * δ :=
        mul_pos hsuits.c1_pos (hsuits.leastPromise_pos hfalling.tolerance_pos)
      have hmany : ((maxIters.toNat : ℕ) : K) = maxIters := by
        rw [← Int.cast_natCast, Int.toNat_of_nonneg hmax]
      rw [div_lt_iff₀ hshare, ← hmany] at hlarge
      have hsunk : (maxIters.toNat : K) * (c * δ) ≤ f x - f z := hsunk
      linarith [hlow z]

/-- The function `½ x² + ½ y²`. -/
def bowl : ConvexQuadratic ℝ 2 where
  matrix := 1
  linear := 0
  symm := isSymm_one
  pos v hv := by
    rw [one_mulVec]
    exact dotProduct_self_pos hv

theorem value_bowl (x : Fin 2 → ℝ) : bowl.value x = 1 / 2 * (x ⬝ᵥ x) := by
  simp [ConvexQuadratic.value, bowl]

/-- From a point at distance one 300 iterations are enough for a gradient of length one tenth. -/
theorem steepest_converges_bowl :
    let s : Backtracking (Exact ℝ) := ⟨1, number (1 / 2), number (1 / 4), 2, 0⟩
    let choices : Choices (Exact ℝ) (Vector (Exact ℝ) 2) (Matrix (Exact ℝ) 2) :=
      ⟨300, number (1 / 10), some (LineSearch.backtracking s).searcher, false⟩
    ∃ outcome, (nonlinearCG "PR+" (some 1) choices bowl.objective.problem
        (lift ![3 / 5, 4 / 5])).result = .ok outcome ∧ outcome.status = .converged := by
  intro s choices
  have hcheck : s.check = .ok () := by
    refine bind_eq_ok_iff.mpr ⟨(), checkArmijo_eq_ok_iff.mpr ⟨?_, ?_⟩, ?_⟩
    · exact number_lt.mpr (by norm_num)
    · exact number_lt.mpr (by norm_num)
    · have hrho : 0 < s.rho ∧ s.rho < 1 :=
        ⟨number_lt.mpr (by norm_num), number_lt.mpr (by norm_num)⟩
      simp only [if_pos hrho]
      rfl
  have hfalls : FallsAlong bowl.value bowl.gradient 1 := by
    refine bowl.fallsAlong fun v => ?_
    rw [one_mul]
    exact (congrArg (v ⬝ᵥ ·) (one_mulVec v)).le
  have hdimension : ∀ k, bowl.objective.problem.dimension = some k → ((2 : ℕ) : ℤ) = k := by
    rintro _ ⟨⟩
    rfl
  have hcap : (1 / 2 : ℝ) ^ (s.maxIter.toNat - 1) ≤ 2 * (1 - 1 / 4) / 1 := by
    rw [show s.maxIter.toNat - 1 = 1 from rfl]
    norm_num
  obtain ⟨outcome, hresult, -, -, hend⟩ := steepest_converges bowl.given rfl hdimension one_pos
    hfalls hcheck rfl rfl hcap (number_le.mpr (by norm_num)) (show (0 : ℝ) < 1 / 10 by norm_num)
    (show (0 : ℤ) ≤ 300 by norm_num) .polakRibiere false ![3 / 5, 4 / 5]
  refine ⟨outcome, hresult, hend 0 (fun y => ?_) ?_⟩
  · rw [value_bowl]
    exact mul_nonneg (by norm_num) (dotProduct_self_nonneg y)
  · rw [value_bowl]
    norm_num

end ConjugateGradient

end Downhill
