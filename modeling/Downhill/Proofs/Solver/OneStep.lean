import Downhill.Proofs.Descent.Advance
import Downhill.Proofs.LineSearch.FullStep
import Downhill.Proofs.Newton.Direction
import Downhill.Proofs.Problem.Given
import Downhill.Proofs.Problem.QuadraticDifference
import Downhill.Proofs.Solver.Equipped

/-! Newton's method on strictly convex quadratic functions. The direction leads to the minimizer,
the searches take the full step, and the gradient there is zero; so one iteration is enough, whether
the derivatives are given or found by differences. -/
open Matrix

namespace Downhill
variable {K : Type} [ExactField K] {n : ℕ}

open Exact

namespace ConvexQuadratic
variable (q : ConvexQuadratic K n) (x : Fin n → K)

/-- The iterate at a vector of the field. -/
def iterate : Iterate (Exact K) (Vector (Exact K) n) :=
  ⟨lift x, number (q.value x), lift (q.gradient x)⟩

/-- A run is over at once if the gradient at its start is small enough, and else at the
minimizer after one step. -/
noncomputable def finish (tolerance : Exact K) : Stop (Exact K) (Vector (Exact K) n) :=
  if withinTolerance (norm (lift (q.gradient x))) tolerance then
    ⟨.converged, .toleranceMet, 0, q.iterate x⟩
  else ⟨.converged, .toleranceMet, 1, q.iterate q.minimizer⟩

section Finish
variable {x} {tolerance : Exact K}

theorem finish_of_near (h : withinTolerance (norm (lift (q.gradient x))) tolerance = true) :
    q.finish x tolerance = ⟨.converged, .toleranceMet, 0, q.iterate x⟩ :=
  if_pos h

variable (h : ¬ withinTolerance (norm (lift (q.gradient x))) tolerance = true)
include h

theorem finish_of_not_near :
    q.finish x tolerance = ⟨.converged, .toleranceMet, 1, q.iterate q.minimizer⟩ :=
  if_neg h

theorem gradient_ne_zero [TrueRoot K] (htolerance : 0 < tolerance) : q.gradient x ≠ 0 := by
  intro hzero
  rw [hzero] at h
  exact h (Except.ok.inj (gradientTest_zero htolerance (lift x) (lift x)))

end Finish

theorem norm_gradient_minimizer [TrueRoot K] : Space.norm (q.iterate q.minimizer).gradient = 0 := by
  rw [iterate, gradient_minimizer]
  exact norm_lift_zero

theorem mulVec_sub_minimizer : q.matrix *ᵥ (q.minimizer - x) = -q.gradient x := by
  rw [mulVec_sub, mulVec_minimizer, gradient, neg_sub]

/-- The slope towards the minimizer. -/
theorem gradient_dotProduct_sub (hx : q.gradient x ≠ 0) :
    q.gradient x ⬝ᵥ (q.minimizer - x) < 0 := by
  have hsolves := q.mulVec_sub_minimizer x
  have hne : q.minimizer - x ≠ 0 := by
    intro hzero
    rw [hzero, mulVec_zero, eq_comm, neg_eq_zero] at hsolves
    exact hx hsolves
  have hpos := q.pos _ hne
  rw [hsolves, dotProduct_neg, dotProduct_comm] at hpos
  exact neg_pos.mp hpos

/-- Towards the minimizer the value falls by half of the slope. -/
theorem value_minimizer :
    q.value q.minimizer = q.value x + q.gradient x ⬝ᵥ (q.minimizer - x) / 2 := by
  have hadd := q.value_add x (q.minimizer - x)
  rw [add_sub_cancel, mulVec_sub_minimizer, dotProduct_neg,
    dotProduct_comm (q.minimizer - x) (q.gradient x)] at hadd
  rw [hadd]
  ring

theorem along_minimizer :
    (⟨q.iterate x, lift (q.minimizer - x)⟩ : Ray _ _).along 1 = lift q.minimizer := by
  change lift x + 1 * lift (q.minimizer - x) = _
  rw [one_eq, number_mul_lift, lift_add, one_smul, add_sub_cancel]

end ConvexQuadratic

namespace Quadratic.Posed
variable {q : ConvexQuadratic K n}
  {p : Problem (Exact K) (Vector (Exact K) n) (Matrix (Exact K) n)} (hp : q.objective.Posed p)
  {x : Fin n → K} {s : Newton (Exact K)} {ls : LineSearch (Exact K)} {config : Config (Exact K)}
include hp

/-- The ray towards the minimizer ends at the minimum along it. -/
theorem bottoms (hx : q.gradient x ≠ 0) :
    (⟨q.iterate x, lift (q.minimizer - x)⟩ : Ray _ _).Bottoms (p.work n true) (q.value x)
      (q.gradient x ⬝ᵥ (q.minimizer - x)) := by
  refine ⟨rfl, (Space.inner_vector ..).trans (dot_lift _ _), q.gradient_dotProduct_sub x hx, ?_, ?_⟩
  · rw [q.along_minimizer, ← q.value_minimizer x]
    exact hp.replies_value _ true
  · rw [q.along_minimizer, ← q.gradient_minimizer]
    exact hp.replies_gradient _ true

/-- The start of a run is open. -/
theorem opened (s : Newton (Exact K)) (ls : LineSearch (Exact K)) (config : Config (Exact K))
    (x : Fin n → K) :
    (⟨p, s.strategy, ls.machine, config⟩ : Descent (Newton.State (Exact K)) Unit _ _ _).opened
      (lift x) = .ok (.inl (q.iterate x)) :=
  Descent.opened_of_replies (hp.replies_value x true) (hp.replies_gradient x true)

variable [TrueRoot K]

/-- The run moves to the minimizer. -/
theorem strides (config : Config (Exact K)) (hn : 0 < n) (hs : s.check = .ok ())
    (hls : ls.TakesFullSteps) (hx : q.gradient x ≠ 0) :
    (⟨p, s.strategy, ls.machine, config⟩ : Descent (Newton.State (Exact K)) Unit _ _ _).Strides
      (p.work n true) (fun st => st = Newton.fresh) ls (q.iterate x) (lift (q.minimizer - x))
      (q.iterate q.minimizer) where
  compute := Newton.surely_direction_definite hs hn q rfl (hp.replies_hessian x)
    (q.mulVec_sub_minimizer x)
  finite := allFinite_lift _
  descends := (hp.bottoms hx).slope_neg
  initialStep := fun _ ht => ⟨rfl, ht⟩
  machine := rfl
  search := by
    refine (hls.replies_search (hp.bottoms hx)).mono ?_
    rintro _ ⟨values, gradients, message, rfl⟩
    refine ⟨rfl, ?_⟩
    rw [q.along_minimizer, ← q.value_minimizer x, ← q.gradient_minimizer]
    rfl
  reached := ⟨allFinite_lift _, rfl, allFinite_lift _⟩
  update _ _ _ := fun _ ht => ht

/-- The run from an open start, which is over at once or after one step. -/
theorem surely_pursue (hn : 0 < n) (hs : s.check = .ok ()) (hls : ls.TakesFullSteps)
    (hcap : 0 < config.maxIters) (htolerance : 0 < config.tolerance) (x : Fin n → K)
    (trace : Array (Iterate (Exact K) (Vector (Exact K) n))) :
    let d : Descent (Newton.State (Exact K)) Unit _ _ _ := ⟨p, s.strategy, ls.machine, config⟩
    Ensures (Keeps (fun st => st = Newton.fresh) trace)
      (d.pursue (p.work n true) (q.iterate x)) (Surely fun stop τ =>
        stop = q.finish x config.tolerance ∧ τ.1.strategy = Newton.fresh) := by
  intro d
  have hverdict : ∀ y z, d.verdict y (q.iterate z) =
      gradientTest y.point (lift z) (lift (q.gradient z)) config.tolerance := by
    intro y z
    rw [Descent.verdict, show d.problem.converged = gradientTest from hp.converged]
    rfl
  refine Act.ensures_ofExcept_bind (hverdict _ _) ?_
  by_cases hnear : withinTolerance (norm (lift (q.gradient x))) config.tolerance = true
  · rw [q.finish_of_near hnear]
    exact .ite (fun _ => .pure fun τ hτ => ⟨rfl, hτ.1⟩) fun hno => absurd hnear hno
  · rw [q.finish_of_not_near hnear]
    refine .ite (fun h => absurd h hnear) fun _ => ?_
    have hdone : d.verdict (q.iterate x) (q.iterate q.minimizer) = .ok true := by
      rw [hverdict, q.gradient_minimizer]
      exact gradientTest_zero htolerance _ _
    have hstrides := hp.strides config hn hs hls (q.gradient_ne_zero hnear htolerance)
    refine Surely.bind (hstrides.surely_loop 0 hcap hdone) fun r => .of_fact fun hr => ?_
    subst hr
    exact .pure fun τ hτ => ⟨rfl, hτ.1⟩

/-- What becomes of a run. -/
theorem exists_run (hn : 0 < n) (hs : s.check = .ok ()) (hls : ls.TakesFullSteps)
    (hcap : 0 < config.maxIters) (htolerance : 0 < config.tolerance) (x : Fin n → K) :
    let d : Descent (Newton.State (Exact K)) Unit _ _ _ := ⟨p, s.strategy, ls.machine, config⟩
    let record := d.run (lift x) Newton.fresh ()
    record.flow.strategy = Newton.fresh ∧ ∃ trace ledger,
      record.result = .ok (d.outcome (lift x) trace ledger (q.finish x config.tolerance)) := by
  intro d record
  obtain ⟨stop, t, hrun, rfl, hfresh⟩ := Descent.exists_run_of_surely (d := d) Newton.fresh ()
    (hp.opened s ls config x) rfl (fun _ => ⟨rfl, rfl⟩)
    (hp.surely_pursue hn hs hls hcap htolerance x #[])
  rw [show record = _ from hrun]
  exact ⟨hfresh, _, _, rfl⟩

end Quadratic.Posed

namespace Method
variable [TrueRoot K] {s : Newton (Exact K)}
  {c : Choices (Exact K) (Vector (Exact K) n) (Matrix (Exact K) n)} {config : Config (Exact K)}
  {default : LineSearch (Exact K)}
  {p : Problem (Exact K) (Vector (Exact K) n) (Matrix (Exact K) n)}

/-- Newton's method solves the quadratic problem of every matrix whose symmetric part is positive
definite, in every dimension but zero, from every start and with every accepted tolerance. A start
at which the gradient is small enough is handed back; from every other start one iteration leads to
the solution, where the gradient is zero. In both cases the run has converged, and the strategy has
counted no shift. This is so with the default search and with any that tries the full step first and
asks for no more than half of the slope, and whether the problem gives its derivatives or not. -/
theorem minimize_quadratic (hm : (newton s).equip c = .ok (config, .newton s, default))
    (hcap : 1 ≤ c.maxIters)
    (hsearch : c.search = none ∨ ∃ ls : LineSearch (Exact K), c.search = some ls.searcher ∧
      ls.TakesFullSteps)
    (hn : 0 < n) {a : SquareMatrix K n} (ha : ∀ v, v ≠ 0 → 0 < v ⬝ᵥ symmetricPart a *ᵥ v)
    (b x : Fin n → K) (hp : (Quadratic.ofMatrix (liftMatrix a) (lift b)).Posed p) :
    let guide := c.guide default
    let record := ((Plan.newton s).descent p guide config).run (lift x) Newton.fresh guide.fresh
    ∃ outcome, ((newton s).minimize c p (lift x)).result = .ok outcome ∧
      outcome.status = .converged ∧
      record.result = .ok outcome ∧ record.flow.strategy = Newton.fresh ∧
      if withinTolerance (norm (lift (symmetricPart a *ᵥ x - b))) config.tolerance then
        outcome.iterations = 0 ∧ outcome.point = lift x
      else
        outcome.iterations = 1 ∧ outcome.point = lift ((symmetricPart a)⁻¹ *ᵥ b) ∧
          outcome.gradientNorm = 0 := by
  obtain ⟨hconfig, hplan, hdefault⟩ := eq_of_equip hm
  obtain ⟨hresult, -⟩ := minimize_eq_run hm (Problem.accept_vector hp.dimension (lift x))
  obtain ⟨_, hcheck, -⟩ := bind_eq_ok_iff.mp hplan
  cases hdefault
  obtain ⟨ls, hguide, hls⟩ := Choices.exists_guide LineSearch.takesFullSteps_standard hsearch
  rw [hresult]
  generalize c.guide (.backtracking .standard) = guide at hguide
  subst hguide
  rw [← ConvexQuadratic.objective_ofMatrix a b ha] at hp
  obtain ⟨hfresh, trace, ledger, hrun⟩ := hp.exists_run hn hcheck hls
    (Config.maxIters_pos hconfig hcap) (Config.tolerance_pos hconfig) x
  intro guide record
  by_cases hnear :
      withinTolerance (norm (lift (symmetricPart a *ᵥ x - b))) config.tolerance = true
  · rw [ConvexQuadratic.finish_of_near (.ofMatrix a b ha) hnear] at hrun
    refine ⟨_, hrun, rfl, hrun, hfresh, ?_⟩
    rw [if_pos hnear]
    exact ⟨rfl, rfl⟩
  · rw [ConvexQuadratic.finish_of_not_near (.ofMatrix a b ha) hnear] at hrun
    refine ⟨_, hrun, rfl, hrun, hfresh, ?_⟩
    rw [if_neg hnear]
    exact ⟨rfl, rfl, ConvexQuadratic.norm_gradient_minimizer _⟩

/-- A matrix that is not symmetric, in a problem that gives its values only. -/
theorem minimize_quadratic_values :
    let a : SquareMatrix ℝ 2 := !![2, 2; 0, 2]
    let p : Problem (Exact ℝ) (Vector (Exact ℝ) 2) (Matrix (Exact ℝ) 2) :=
      { (Quadratic.ofMatrix (liftMatrix a) (lift 0)).problem with
        gradient? := none
        hessian? := none }
    let m : Method (Exact ℝ) := .newton .standard
    ∃ outcome, (m.minimize m.defaults p (lift ![1, 0])).result = .ok outcome ∧
      outcome.status = .converged ∧ outcome.iterations = 1 ∧ outcome.point = lift 0 ∧
      outcome.gradientNorm = 0 := by
  intro a p m
  have hm : m.equip (m.defaults : Choices _ (Vector (Exact ℝ) 2) (Matrix (Exact ℝ) 2)) =
      .ok (⟨100, Config.defaultTolerance, false⟩, .newton .standard, .backtracking .standard) := by
    have htolerance : (0 : Exact ℝ) < Config.defaultTolerance := number_lt.mpr (by norm_num)
    refine bind_eq_ok_iff.mpr ⟨_, (if_neg (by decide)).trans (if_pos htolerance), ?_⟩
    exact bind_eq_ok_iff.mpr ⟨_, bind_eq_ok_iff.mpr ⟨(), Newton.check_standard, rfl⟩, rfl⟩
  have hsym : symmetricPart a = !![2, 1; 1, 2] := by
    ext i j
    fin_cases i <;> fin_cases j <;> norm_num [symmetricPart, a]
  have hpos : ∀ v : Fin 2 → ℝ, v ≠ 0 → 0 < v ⬝ᵥ symmetricPart a *ᵥ v := by
    intro v hv
    have hself := dotProduct_self_pos hv
    rw [hsym]
    simp only [dotProduct, mulVec, Fin.sum_univ_two, of_apply, cons_val_zero,
      cons_val_one] at hself ⊢
    nlinarith [sq_nonneg (v 0 + v 1)]
  have hp : (Quadratic.ofMatrix (liftMatrix a) (lift 0)).Posed p :=
    ⟨rfl, .inl rfl, .inl rfl, rfl, by rintro _ ⟨⟩; rfl⟩
  obtain ⟨outcome, hresult, hstatus, -, -, hend⟩ :=
    minimize_quadratic hm (by decide) (.inl rfl) two_pos hpos 0 ![1, 0] hp
  refine ⟨outcome, hresult, hstatus, ?_⟩
  have hfar : ¬ withinTolerance (norm (lift (symmetricPart a *ᵥ ![1, 0] - 0)))
      (Config.defaultTolerance : Exact ℝ) = true := by
    have hsquare : symmetricPart a *ᵥ ![1, 0] ⬝ᵥ symmetricPart a *ᵥ ![1, 0] = 5 := by
      rw [hsym]
      norm_num [dotProduct, mulVec, Fin.sum_univ_two]
    have hlarge : (1 : ℝ) ≤ √5 := Real.one_le_sqrt.mpr (by norm_num)
    have hsmall : Scalar.larger (Config.defaultTolerance : Exact ℝ) leastTolerance =
        number (max 1e-6 1e-12) := larger_number
    rw [sub_zero, norm_lift, hsquare, withinTolerance, decide_eq_true_iff, hsmall, number_le,
      not_le]
    exact hlarge.trans_lt' (by norm_num)
  rw [if_neg hfar, mulVec_zero] at hend
  exact hend

end Method

end Downhill
