import Downhill.Proofs.Problem.ExactDifference
import Downhill.Proofs.Solver.Equipped

/-! End tests of a problem's own. Such a test may go on at a point where the gradient is zero. No
direction descends there, and the fault that this raises is not one that a status tells; it is the
only fault of a run whose evaluations are finite. -/
open Matrix

namespace Downhill
variable {K : Type} [ExactField K] {n : ℕ}

open Exact

/-- The problem raises no fault, and what it says of finite points is finite. -/
def Problem.Regular (p : Problem (Exact K) (Vector (Exact K) n) (Matrix (Exact K) n)) : Prop :=
  p.Answers (fun x f => Space.finite x = true → Scalar.isFinite f = true)
    (fun x g => Space.finite x = true → Space.finite g = true)
    fun x h => Space.finite x = true → h.allFinite = true

namespace Problem.Regular
variable {p : Problem (Exact K) (Vector (Exact K) n) (Matrix (Exact K) n)} (h : p.Regular)
include h

theorem answers_embedded : p.Answers (Embedded number fun _ _ => True)
    (Embedded lift fun _ _ => True) (Embedded liftMatrix fun _ _ => True) where
  value x := by
    obtain ⟨f, hf, hfin⟩ := h.value x
    refine ⟨f, hf, ?_⟩
    rintro v rfl
    exact (isFinite_iff.mp (hfin (allFinite_lift v))).imp fun _ hy => ⟨hy, trivial⟩
  gradient g hg x := by
    obtain ⟨w, hw, hfin⟩ := h.gradient g hg x
    refine ⟨w, hw, ?_⟩
    rintro v rfl
    exact (exists_lift (hfin (allFinite_lift v))).imp fun _ hy => ⟨hy, trivial⟩
  hessian k hk x := by
    obtain ⟨m, hm, hfin⟩ := h.hessian k hk x
    refine ⟨m, hm, ?_⟩
    rintro v rfl
    exact (exists_liftMatrix (hfin (allFinite_lift v))).imp fun _ hy => ⟨hy, trivial⟩

/-- Hessians at finite points are finite, also those that are made of differences. -/
theorem replies_hessian {x : Vector (Exact K) n} (hx : Space.finite x = true) :
    Replies ((p.work n true).hessian x) fun m => m.allFinite = true := by
  obtain ⟨v, rfl⟩ := exists_lift hx
  have hcarries : Difference.Carries (K := K) (n := n) (fun _ _ => True) (fun _ _ => True)
      (fun _ _ _ _ => True) fun _ _ => True :=
    ⟨fun _ _ _ _ _ => trivial, fun _ _ _ _ _ => trivial, fun _ _ _ _ _ _ _ _ _ _ => trivial,
      fun _ _ _ _ _ _ _ _ _ _ _ _ _ => trivial, fun _ _ _ => trivial⟩
  refine (h.answers_embedded.replies_hessian_embedded hcarries (lift v)).mono fun m hm => ?_
  obtain ⟨a, rfl, -⟩ := hm v rfl
  exact allFinite_liftMatrix a

end Problem.Regular

namespace Method
variable [SoundRoot K] {m : Method (Exact K)}
  {c : Choices (Exact K) (Vector (Exact K) n) (Matrix (Exact K) n)} {config : Config (Exact K)}
  {plan : Plan (Exact K)} {default : LineSearch (Exact K)}
  {p : Problem (Exact K) (Vector (Exact K) n) (Matrix (Exact K) n)}

/-- A method raises a fault if and only if it comes to a point where the gradient is zero with no
end test met and steps left, and then it is the fault of the method at such a point; in all other
cases it returns an outcome. This is for every problem in at least one dimension that raises no
fault and is finite at finite points, with an end test of its own that always has an answer; from
every start; and with settings that are accepted, where the threshold of curvature pairs is not
negative, the shifts are finite and the first step of the search is positive and finite. -/
theorem minimize_eq_error_iff (hm : m.equip c = .ok (config, plan, default))
    (hthreshold : ∀ s, m = .quasiNewton s → 0 ≤ s.threshold)
    (hshift : ∀ s, m = .newton s →
      Scalar.isFinite s.beta = true ∧ Scalar.isFinite s.growth = true)
    (hsearch : c.search = none ∨ ∃ s : LineSearch (Exact K), c.search = some s.searcher ∧ s.Starts)
    (hn : 0 < n) (hp : p.Regular)
    (htest : ∀ x y g tolerance, ∃ done, p.converged x y g tolerance = .ok done)
    (hdimension : ∀ k, p.dimension = some k → (n : ℤ) = k) (x : Vector (Exact K) n)
    (f : Fault (Exact K)) :
    let d := plan.descent p (c.guide default) config
    let report := m.minimize c p x
    report.result = .error f ↔ f = plan.stallFault ∧
      ∃ start, d.opened x = .ok (.inl start) ∧ d.Stranded start report.trace.toList := by
  intro d report
  obtain ⟨-, hplan, -⟩ := eq_of_equip hm
  obtain ⟨s, first, hguide, hsturdy⟩ := exists_sturdy hm hsearch hn hp.total htest
  obtain ⟨hresult, htrace⟩ := minimize_eq_run hm (Problem.accept_vector hdimension x)
  simp only [report, d]
  rw [hresult, htrace]
  generalize c.guide default = guide at hguide
  subst hguide
  let d := plan.descent p s.searcher config
  have hstalls : d.strategy.Stalls (d.work n) plan.Invariant plan.Cleared plan.stallFault :=
    plan.stalls hn (fun s hs => hshift s (eq_newton_of_plan (hs ▸ hplan)))
      fun v hv => hp.replies_hessian hv
  obtain ⟨outcome, hout, hnever⟩ | ⟨start, hstart, hfault, hstranded⟩ :=
    Descent.run_cases (x := x) hsturdy (fun _ _ _ _ => hstalls)
      (Plan.prepares hplan hthreshold hn (d.work n))
  · refine ⟨fun hf => ?_, ?_⟩
    · cases hout.symm.trans hf
    · rintro ⟨-, start, hstart, hstranded⟩
      exact absurd hstranded (hnever start hstart)
  · refine ⟨fun hf => ?_, ?_⟩
    · obtain rfl := Except.error.inj (hfault.symm.trans hf)
      exact ⟨rfl, start, hstart, hstranded⟩
    · rintro ⟨rfl, -⟩
      exact hfault

/-- The paraboloid `x² + y²`, with an end test that is never met. -/
def restless : Problem (Exact ℚ) (Vector (Exact ℚ) 2) (Matrix (Exact ℚ) 2) :=
  { Quadratic.problem ⟨liftMatrix !![2, 0; 0, 2], lift 0⟩ with
    converged := fun _ _ _ _ => .ok false }

theorem regular_restless : restless.Regular where
  value x := by
    refine ⟨_, rfl, fun hx => ?_⟩
    obtain ⟨v, rfl⟩ := exists_lift hx
    rw [Quadratic.value_lift]
    rfl
  gradient := by
    rintro _ ⟨⟩ x
    refine ⟨_, rfl, fun hx => ?_⟩
    obtain ⟨v, rfl⟩ := exists_lift hx
    rw [Quadratic.gradient_lift]
    exact allFinite_lift _
  hessian := by
    rintro _ ⟨⟩ x
    exact ⟨_, rfl, fun _ => allFinite_liftMatrix _⟩

/-- At the minimum the search refuses the Newton direction. -/
theorem minimize_eq_error_newton :
    let m : Method (Exact ℚ) := .newton .standard
    let c : Choices (Exact ℚ) (Vector (Exact ℚ) 2) (Matrix (Exact ℚ) 2) := m.defaults
    (m.minimize c restless (lift 0)).result = .error (.notDescent 0) := by
  intro m c
  have hm : m.equip c = .ok (⟨100, Config.defaultTolerance, false⟩, .newton .standard,
      .backtracking .standard) := by decide +kernel
  refine (minimize_eq_error_iff hm ?_ ?_ (.inl rfl) two_pos regular_restless ?_ ?_ _ _).mpr
    ⟨rfl, ⟨lift 0, 0, lift 0⟩, by decide +kernel, ?_⟩
  · intro s hs
    have hs : Method.newton .standard = .quasiNewton s := hs
    cases hs
  · intro s hs
    obtain rfl := Method.newton.inj hs
    exact ⟨rfl, rfl⟩
  · exact fun _ _ _ _ => ⟨false, rfl⟩
  · rintro _ ⟨⟩
    rfl
  · have htrace : (m.minimize c restless (lift 0)).trace.toList = [] := by decide +kernel
    rw [htrace]
    refine ⟨?_, by decide +kernel, rfl⟩
    rintro _ (_ | ⟨_, ⟨⟩⟩)
    rfl

/-- All methods raise a fault at the minimum. -/
theorem minimize_restless :
    let run (m : Method (Exact ℚ)) :=
      (m.minimize (m.defaults : Choices _ _ (Matrix (Exact ℚ) 2)) restless (lift 0)).result
    run (.newton .standard) = .error (.notDescent 0) ∧
      run .standardConjugateGradient = .error .zeroDivision ∧
      run (.quasiNewton .standard) = .error .zeroDivision := by
  decide +kernel

end Method

end Downhill
