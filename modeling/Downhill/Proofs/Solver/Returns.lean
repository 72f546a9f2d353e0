import Downhill.Proofs.Descent.Answers
import Downhill.Proofs.Solver.Equipped

/-! Methods return outcomes. With the ordinary end test a run goes on only where the gradient is not
zero, and there no direction, no first step and no search raises a fault that a status cannot
tell. -/
namespace Downhill
variable {K : Type} [ExactField K] [SoundRoot K] {n : ℕ}

open Exact

namespace Method
variable {m : Method (Exact K)} {c : Choices (Exact K) (Vector (Exact K) n) (Matrix (Exact K) n)}
  {config : Config (Exact K)} {plan : Plan (Exact K)} {default : LineSearch (Exact K)}
  {p : Problem (Exact K) (Vector (Exact K) n) (Matrix (Exact K) n)}

/-- A method returns an outcome: for every problem in at least one dimension that is tested in the
ordinary way and raises no fault, whatever it answers; from every start; with settings that are
accepted, where the threshold of curvature pairs is not negative; and with the default search or any
search of the library whose own first step is positive and finite. In the course of its run no call
to the strategy or to a search raises any but a numerical fault, so that nothing is divided by zero
on the way; and a search is asked only along directions that descend, and only with positive first
steps. -/
theorem minimize_returns (hm : m.equip c = .ok (config, plan, default))
    (hthreshold : ∀ s, m = .quasiNewton s → 0 ≤ s.threshold)
    (hsearch : c.search = none ∨ ∃ s : LineSearch (Exact K), c.search = some s.searcher ∧ s.Starts)
    (hn : 0 < n) (hp : p.Total) (htest : p.converged = gradientTest)
    (hdimension : ∀ k, p.dimension = some k → (n : ℤ) = k) (x : Vector (Exact K) n) :
    (∃ outcome, (m.minimize c p x).result = .ok outcome) ∧
    let guide := c.guide default
    let d := plan.descent p guide config
    ∀ start, d.opened x = .ok (.inl start) → ∃ events flow ledger,
      d.Converses x start plan.strategist.fresh guide.fresh events flow ledger ∧
      flow.trace = (m.minimize c p x).trace ∧
      (∀ e ∈ events, ∀ f, e.answer = .error f → f.isNumerical = true) ∧
      ∀ ray asked answer, ⟨.search ray asked, answer⟩ ∈ events →
        Space.inner ray.start.gradient ray.direction < 0 ∧
        ∀ a, asked = some a → 0 < a ∧ Scalar.isFinite a = true := by
  obtain ⟨hconfig, hplan, -⟩ := eq_of_equip hm
  obtain ⟨s, first, hguide, hsturdy⟩ := exists_sturdy hm hsearch hn hp fun x y g tolerance =>
    ⟨_, congrFun (congrFun (congrFun (congrFun htest x) y) g) tolerance⟩
  obtain ⟨hresult, htrace⟩ := minimize_eq_run hm (Problem.accept_vector hdimension x)
  rw [hresult, htrace]
  generalize c.guide default = guide at hguide
  subst hguide
  let d := plan.descent p s.searcher config
  have hmet : ∀ a b, b.gradient = lift 0 → d.verdict a b = .ok true := by
    intro a b hb
    rw [Descent.verdict, show d.problem.converged = gradientTest from htest, hb]
    exact gradientTest_zero (Config.tolerance_pos hconfig) a.point b.point
  have hready := Plan.prepares hplan hthreshold hn (d.work n)
  have hnever : ∀ a b, d.verdict a b = .ok false → b.gradient = lift 0 →
      d.strategy.Stalls (d.work n) plan.Invariant (fun _ => True) .zeroDivision := by
    intro a b hfalse hzero
    cases (hmet a b hzero).symm.trans hfalse
  obtain ⟨outcome, hout, -⟩ | ⟨start, -, -, htests, -, hzero⟩ :=
    Descent.run_cases (x := x) hsturdy hnever hready
  · refine ⟨⟨outcome, hout⟩, ?_⟩
    intro guide d' start hstart
    obtain ⟨f, -, hrefused, -⟩ | ⟨events, ledger, hconverses, hend⟩ :=
      Descent.run_converses plan.strategist.fresh () hstart
    · cases hout.symm.trans hrefused
    obtain ⟨stop, -, hending, -⟩ := hend outcome hout
    have hnumerical : ∀ e ∈ events, ∀ f, e.answer = .error f → f.isNumerical = true :=
      fun e he f hf => hending.isNumerical hconverses.1 he hf
    refine ⟨events, _, ledger, hconverses, rfl, hnumerical, fun ray asked answer he => ?_⟩
    obtain ⟨-, prepared, -, htranscript⟩ := hconverses
    exact htranscript.search_proper rfl hsturdy.firstStep he (hnumerical _ he)
  · cases (hmet _ _ hzero).symm.trans (htests _ (List.mem_of_getLast? Descent.getLast?_tests))

/-- Values that are missing in half of the plane, where the first steps of the search lead. -/
theorem minimize_returns_undefined :
    let p : Problem (Exact ℚ) (Vector (Exact ℚ) 2) (Matrix (Exact ℚ) 2) :=
      { LineSearch.bowl with
        value := fun v => if first v < 2 then LineSearch.bowl.value v else .ok .undefined }
    let m : Method (Exact ℚ) := .quasiNewton .standard
    let c : Choices (Exact ℚ) (Vector (Exact ℚ) 2) (Matrix (Exact ℚ) 2) :=
      ⟨1000, Config.defaultTolerance, some (LineSearch.bisection .standard).searcher, false⟩
    ∃ outcome, (m.minimize c p #v[0, 0]).result = .ok outcome := by
  intro p m c
  have hm : m.equip c = .ok (⟨1000, Config.defaultTolerance, false⟩,
      .quasiNewton .standard, .moreThuente (.standard 0.9)) := by decide +kernel
  have hp : p.Total := by
    refine ⟨fun x => ?_, ?_, ?_⟩
    · by_cases hx : first x < 2
      · exact ⟨_, if_pos hx, trivial⟩
      · exact ⟨_, if_neg hx, trivial⟩
    · rintro _ ⟨⟩ x
      exact ⟨_, rfl, trivial⟩
    · rintro _ ⟨⟩ x
      exact ⟨_, rfl, trivial⟩
  refine (minimize_returns hm ?_ ?_ two_pos hp rfl ?_ #v[0, 0]).1
  · intro s hs
    obtain rfl := Method.quasiNewton.inj hs
    decide +kernel
  · exact .inr ⟨.bisection .standard, rfl, 1.0, rfl, by decide +kernel, rfl⟩
  · rintro _ ⟨⟩
    rfl

end Method

end Downhill
