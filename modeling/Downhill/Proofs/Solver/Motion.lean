import Downhill.Proofs.ConjugateGradient.Motion
import Downhill.Proofs.Descent.Motion
import Downhill.Proofs.Newton.Motion
import Downhill.Proofs.QuasiNewton.Motion
import Downhill.Proofs.Solver.OneStep
import Downhill.Proofs.Solver.SteepestDescent

/-! Solvers do not see their coordinates. A problem that is turned, shifted and raised is solved by
the images of the iterates, in as many steps, with the same evaluations and for the same reason. -/
open Matrix

namespace Downhill
variable {K : Type} [ExactField K] {n : ℕ}

open Exact

namespace Plan

/-- What the strategies of the library count: shifts and fallbacks, restarts, pairs left out. -/
def counters {α V M : Type} [Scalar α] [Space α V] [Curved α V M] : (plan : Plan α) →
    (plan.strategist : Strategist α V M).State → List ℕ
  | newton _ => fun st => [st.regularizations, st.fallbacks]
  | conjugateGradient _ => fun st => [st.restarts]
  | quasiNewton _ => fun st => [st.skipped]

/-- A run does not see its coordinates. For every orthogonal matrix, every shift of the origin and
every offset of the values, the run in the new coordinates from the image of the start ends with the
same status and message, after as many steps, with the same evaluations and the same length of the
gradient, or with the same fault. Its iterates are the images of the iterates, with values that are
higher by the offset, and the strategies have counted the same. This is for every problem with its
own derivatives and the ordinary end test, and for every method, search of the library and settings.
Newton's method, whose first shift depends on the diagonal of a Hessian, asks for true roots and for
coordinates that are only put in another order. -/
theorem run_moves (plan : Plan (Exact K)) (s : LineSearch (Exact K)) (config : Config (Exact K))
    (hs : s.check = .ok ()) (m : RigidMotion K n)
    {p p' : Problem (Exact K) (Vector (Exact K) n) (Matrix (Exact K) n)}
    {f : (Fin n → K) → K} {g : (Fin n → K) → Fin n → K} {h : (Fin n → K) → SquareMatrix K n}
    (hp : p.Given f g) (hp' : p'.Given (m.value f) (m.gradient g))
    (htest : p.converged = gradientTest) (htest' : p'.converged = gradientTest)
    (hnewton : ∀ c, plan = .newton c → TrueRoot K ∧ c.check = .ok () ∧ m.Permutes ∧
      p.GivenHessian h ∧ p'.GivenHessian (m.hessian h)) (x : Fin n → K) :
    let record := (plan.descent p s.searcher config).run (lift x) plan.strategist.fresh ()
    let record' := (plan.descent p' s.searcher config).run (lift (m.point x))
      plan.strategist.fresh ()
    record'.result = record.result.map m.outcome ∧
    record'.flow.trace = record.flow.trace.map m.iterate ∧
    plan.counters record'.flow.strategy = plan.counters record.flow.strategy ∧
    record'.ledger.evaluations = record.ledger.evaluations := by
  have hneeds : ∀ q : Problem (Exact K) (Vector (Exact K) n) (Matrix (Exact K) n),
      false = true → q.hasHessian = true := fun _ h => by cases h
  cases plan with
  | newton c =>
    obtain ⟨hroot, hc, hm, hh, hh'⟩ := hnewton c rfl
    obtain ⟨hresult, ⟨hstate, htrace⟩, hl⟩ := Descent.run_on
      (d := (newton c).descent p s.searcher config) (p := p')
      ⟨hp.moves hp' (fun _ => hh.hasHessian) fun _ => hh'.hasHessian,
        Newton.follows hc hm (hp.turnsHessian hp' hh hh') f g, ⟨s, rfl, hs⟩, htest, htest'⟩ x
      Newton.fresh rfl
    exact ⟨hresult, htrace, congrArg (counters (.newton c)) hstate, hl⟩
  | conjugateGradient c =>
    obtain ⟨hresult, ⟨hstate, htrace⟩, hl⟩ := Descent.run_on
      (d := (conjugateGradient c).descent p s.searcher config) (p := p')
      ⟨hp.moves hp' (hneeds p) (hneeds p'), ConjugateGradient.follows c f g _ _, ⟨s, rfl, hs⟩,
        htest, htest'⟩ x c.fresh rfl
    exact ⟨hresult, htrace, congrArg ([·]) hstate, hl⟩
  | quasiNewton c =>
    obtain ⟨hresult, ⟨hstate, htrace⟩, hl⟩ := Descent.run_on
      (d := (quasiNewton c).descent p s.searcher config) (p := p')
      ⟨hp.moves hp' (hneeds p) (hneeds p'), QuasiNewton.follows c f g _ _, ⟨s, rfl, hs⟩, htest,
        htest'⟩ x QuasiNewton.fresh rfl
    exact ⟨hresult, htrace, congrArg ([·]) hstate, hl⟩

/-- Two steps with a memory in coordinates that are turned by an angle with the sides 3, 4 and 5,
and a run of Newton's method with the coordinates in another order. -/
theorem run_moves_turned :
    (let m : RigidMotion ℚ 2 :=
      ⟨!![3 / 5, -4 / 5; 4 / 5, 3 / 5], by decide +kernel, ![1, 0], 7⟩
    let f : (Fin 2 → ℚ) → ℚ := fun x => x 0 ^ 2 / 2 + 2 * x 1 ^ 2
    let g : (Fin 2 → ℚ) → Fin 2 → ℚ := fun x => ![x 0, 4 * x 1]
    let plan : Plan (Exact ℚ) := .quasiNewton ⟨3, 0⟩
    let s : LineSearch (Exact ℚ) := .moreThuente (.standard 0.9)
    let p := Problem.ofFunctions (m.value f) (m.gradient g) 0
    let record := (plan.descent p s.searcher ⟨2, 1e-6, true⟩).run (lift ![2, -1])
      plan.strategist.fresh ()
    let last : Vector (Exact ℚ) 2 := #v[number (-183 / 3869), number (-1241 / 3869)]
    record.result = .ok ⟨last, number (1611817 / 205057), number (5940 / 3869), 2, .iterationCap,
        .iterationCap, ⟨3, 3, 0⟩, [#v[2, -1], #v[1, -1], last]⟩ ∧
      plan.counters record.flow.strategy = [0]) ∧
    let m : RigidMotion ℝ 2 := .reorder (Equiv.swap 0 1) ![1, 0] 7
    let q : ConvexQuadratic ℝ 2 := { ConjugateGradient.bowl with linear := ![3, 4] }
    let plan : Plan (Exact ℝ) := .newton .standard
    let s : LineSearch (Exact ℝ) := .backtracking .standard
    let p := Problem.ofFunctions (m.value q.value) (m.gradient q.gradient)
      (m.hessian fun _ => q.matrix)
    let record := (plan.descent p s.searcher ⟨1, 1e-6, false⟩).run (lift (m.point 0))
      plan.strategist.fresh ()
    ∃ outcome, record.result = .ok outcome ∧ outcome.status = .converged ∧
      plan.counters record.flow.strategy = [0, 0] := by
  constructor
  · intro m f g plan s p record last
    have hs : s.check = .ok () := by decide +kernel
    have hturned : m.point ![3, 1] = ![2, -1] := by decide +kernel
    let first := (plan.descent (Problem.ofFunctions f g 0) s.searcher ⟨2, 1e-6, true⟩).run
      (lift ![3, 1]) plan.strategist.fresh ()
    let there : Vector (Exact ℚ) 2 := #v[number (4752 / 3869), number (-891 / 3869)]
    have hfirst : first.result = .ok ⟨there, number (176418 / 205057), number (5940 / 3869), 2,
        .iterationCap, .iterationCap, ⟨3, 3, 0⟩,
        [#v[3, 1], #v[number (12 / 5), number (1 / 5)], there]⟩ := by decide +kernel
    have hnone : plan.counters first.flow.strategy = [0] := by decide +kernel
    have hother : ∀ c, plan ≠ .newton c := fun c hc => by
      have hc : Plan.quasiNewton ⟨3, 0⟩ = .newton c := hc
      cases hc
    obtain ⟨hresult, -, hcounters, -⟩ := run_moves plan s ⟨2, 1e-6, true⟩ hs m
      (Problem.given_ofFunctions f g 0) (Problem.given_ofFunctions (m.value f) (m.gradient g) 0)
      rfl rfl (h := 0) (fun c hc => absurd hc (hother c)) ![3, 1]
    rw [hturned] at hresult hcounters
    refine ⟨hresult.trans ?_, hcounters.trans hnone⟩
    rw [show _ = _ from hfirst]
    decide +kernel
  · intro m q plan s p record
    have hposed : q.objective.Posed q.objective.problem :=
      ⟨rfl, .inr rfl, .inr rfl, rfl, by rintro _ ⟨⟩; rfl⟩
    let config : Config (Exact ℝ) := ⟨1, 1e-6, false⟩
    have hcap : 0 < config.maxIters := Nat.one_pos
    have htolerance : 0 < config.tolerance := number_lt.mpr (by norm_num)
    obtain ⟨hfresh, trace, ledger, hrun⟩ := hposed.exists_run two_pos Newton.check_standard
      LineSearch.takesFullSteps_standard hcap htolerance 0
    have hgiven : q.objective.problem.GivenHessian fun _ => q.matrix := ⟨rfl, fun _ => rfl⟩
    obtain ⟨hresult, -, hcounters, -⟩ := run_moves plan s ⟨1, 1e-6, false⟩
      LineSearch.takesFullSteps_standard.check m q.given
      (Problem.given_ofFunctions (m.value q.value) (m.gradient q.gradient) _) rfl rfl
      (fun c hc => by
        have hc : Plan.newton .standard = .newton c := hc
        cases hc
        exact ⟨trueRootReal, Newton.check_standard, ⟨_, rfl⟩, hgiven,
          Problem.givenHessian_ofFunctions _ _ _⟩) 0
    refine ⟨_, hresult.trans (congrArg (Except.map m.outcome) hrun), ?_,
      hcounters.trans (congrArg plan.counters hfresh)⟩
    change (q.finish 0 _).status = .converged
    unfold ConvexQuadratic.finish
    split_ifs <;> rfl

end Plan

end Downhill
