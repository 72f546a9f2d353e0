import Downhill.Proofs.Descent.Lockstep
import Downhill.Proofs.Problem.Filled
import Downhill.Proofs.Solver.Equipped

/-! Runs on a problem that lacks derivatives, and on the problem in which differences stand in for
them. Both runs go the same way; the derivatives that the first run forms over counted values are
counted as derivatives by the second. -/
namespace Downhill
variable {α : Type} [Scalar α] {n : ℕ}

namespace Plan
variable (plan : Plan α) (p : Problem α (Vector α n) (Matrix α n)) (s : LineSearch α)
  (config : Config α)

/-- The runs of a plan on a problem and on the completed problem keep in step. -/
theorem lockstep_completed :
    let d := plan.descent p s.searcher config
    d.Lockstep p.completed (d.work n) ((d.on p.completed).work n) plan.SameCourse
      (Ledger.Accords (p.hasGradient = true)) := by
  intro d
  refine ⟨rfl, lockstep_remark, plan.lockstep lockstep_remark fun hneeds x => ?_,
    s.lockstep (p.lockstep_work_value _) (p.lockstep_work_gradient _)⟩
  have hd : d.strategy.needsHessian = true := hneeds
  rw [Descent.work, Descent.work, show (d.on p.completed).strategy = d.strategy from rfl, hd]
  exact p.lockstep_work_hessian x

/-- It does not matter where differences are filled in. For any problem, a run on the problem itself
and a run on the completed problem, with one strategy, search and config from one start, ask their
questions at the same points, make the same calls, accept the same iterates and end in the same way;
their outcomes differ at most in the numbers of evaluations, and where the problem has a gradient of
its own not in the number of values. What is filled in once is not filled in again. -/
theorem run_completed (state : (plan.strategist : Strategist α _ (Matrix α n)).State)
    (x : Vector α n) :
    let d := plan.descent p s.searcher config
    let d' := plan.descent p.completed s.searcher config
    ((∃ f, d.runFrom x state () = .error f ∧ d'.runFrom x state () = .error f) ∨
      ∃ r r', d.runFrom x state () = .ok r ∧ d'.runFrom x state () = .ok r' ∧
        r'.flow.trace = r.flow.trace ∧ r'.flow.calls = r.flow.calls ∧
        r'.ledger.requests = r.ledger.requests ∧ r'.ledger.remarks = r.ledger.remarks ∧
        ∃ counts, r'.result = r.result.map (fun outcome => { outcome with evaluations := counts }) ∧
          (p.hasGradient = true → ∀ outcome, r.result = .ok outcome →
            counts.values = outcome.evaluations.values)) ∧
    ∀ eps secondEps eps' secondEps',
      (p.filled eps secondEps).filled eps' secondEps' = p.filled eps secondEps := by
  intro d d'
  refine ⟨?_, p.filled_filled⟩
  rcases haccept : p.accept x with f | y
  · exact .inl ⟨f, Descent.runFrom_of_fault _ _ haccept, Descent.runFrom_of_fault _ _ haccept⟩
  obtain rfl := Descent.eq_of_accept haccept
  have hlockstep := plan.lockstep_completed p s config
  obtain ⟨r, flow, flow', l, l', hrun, hrun', hflow, hl⟩ := Descent.exists_close_on (x := y)
    hlockstep (p.lockstep_work_value _) (p.lockstep_work_gradient _) ⟨rfl, rfl, fun _ => rfl⟩ state
    state ()
  refine .inr ⟨_, _, (Descent.runFrom_eq_ok_iff _ _).mpr ⟨haccept, hrun.symm⟩,
    (Descent.runFrom_eq_ok_iff _ _).mpr ⟨haccept, hrun'.symm⟩, ?_⟩
  cases r with
  | error f =>
    exact ⟨hflow.trace, hflow.calls, hl.requests, hl.remarks, {}, rfl, fun _ _ h => (by cases h)⟩
  | ok stop =>
    refine ⟨hflow.trace, hflow.calls, hl.requests,
      congrArg (fun remarks => remarks.push (d.farewell stop)) hl.remarks, l'.evaluations, ?_, ?_⟩
    · have houtcome : d'.outcome y flow'.trace l' stop =
          { d.outcome y flow.trace l stop with evaluations := l'.evaluations } := by
        rw [hflow.trace]
        rfl
      exact congrArg Except.ok houtcome
    · rintro hg _ ⟨⟩
      exact hl.values hg

/-- The square of a number, with or without its derivative. -/
def square
    (gradient? : Option (Vector (Exact ℚ) 1 → Except (Fault (Exact ℚ)) (Vector (Exact ℚ) 1))) :
    Problem (Exact ℚ) (Vector (Exact ℚ) 1) (Matrix (Exact ℚ) 1) :=
  ⟨"square", none, fun v => .ok (first v * first v), gradient?, none, gradientTest⟩

/-- A Newton step from `3`: the second derivative is formed from gradients in both runs, and the
values are counted alike. -/
theorem run_completed_square :
    let p := square (some fun v => .ok (v + v))
    let d := (newton .standard).descent p (LineSearch.backtracking .standard).searcher .standard
    let d' := (newton .standard).descent p.completed
      (LineSearch.backtracking .standard).searcher .standard
    ∃ r r' outcome counts, d.runFrom #v[3] Newton.fresh () = .ok r ∧
      d'.runFrom #v[3] Newton.fresh () = .ok r' ∧ p.hasGradient = true ∧ r.result = .ok outcome ∧
      r'.result = .ok { outcome with evaluations := counts } ∧
      counts.values = outcome.evaluations.values ∧ outcome.point = #v[0] ∧
      counts.gradients < outcome.evaluations.gradients := by
  intro p d d'
  have hlockstep := run_completed (newton .standard) p (.backtracking .standard) .standard
    Newton.fresh #v[3]
  obtain ⟨⟨f, hrefused, -⟩ | ⟨r, r', hr, hr', -, -, -, -, counts, hresult, hvalues⟩, -⟩ := hlockstep
  · have hbegins : d.runFrom #v[3] Newton.fresh () = .ok (d.run #v[3] Newton.fresh ()) :=
      (Descent.runFrom_eq_ok_iff _ _).mpr ⟨rfl, rfl⟩
    cases hrefused.symm.trans hbegins
  obtain ⟨haccept, rfl⟩ := (Descent.runFrom_eq_ok_iff _ _).mp hr
  obtain ⟨-, rfl⟩ := (Descent.runFrom_eq_ok_iff _ _).mp hr'
  have hout : (d.run #v[3] Newton.fresh ()).result = .ok ⟨#v[0], 0,
      Space.norm (V := Vector (Exact ℚ) 1) #v[0], 1, .converged, .toleranceMet, ⟨3, 4, 0⟩, []⟩ := by
    decide +kernel
  have hcounts : (d'.run #v[3] Newton.fresh ()).result = .ok ⟨#v[0], 0,
      Space.norm (V := Vector (Exact ℚ) 1) #v[0], 1, .converged, .toleranceMet, ⟨3, 2, 1⟩, []⟩ := by
    decide +kernel
  rw [hout] at hresult
  have hevaluations : (⟨3, 2, 1⟩ : Evaluations) = counts :=
    congrArg Outcome.evaluations (Except.ok.inj (hcounts.symm.trans hresult))
  refine ⟨_, _, _, counts, hr, hr', rfl, hout, hresult, hvalues rfl _ hout, rfl, ?_⟩
  rw [← hevaluations]
  decide

/-- Where the gradient is left to differences, the first run counts the values that they take. -/
theorem run_completed_counts :
    let p := square none
    let search := LineSearch.moreThuente (α := Exact ℚ) (.standard 0.1)
    let d := (conjugateGradient ⟨.polakRibiere, none⟩).descent p search.searcher .standard
    let d' := (conjugateGradient ⟨.polakRibiere, none⟩).descent p.completed search.searcher
      .standard
    ∃ outcome outcome',
      (d.run #v[3] (ConjugateGradient.fresh ⟨.polakRibiere, none⟩) ()).result = .ok outcome ∧
      (d'.run #v[3] (ConjugateGradient.fresh ⟨.polakRibiere, none⟩) ()).result = .ok outcome' ∧
      outcome.evaluations.values = 9 ∧ outcome'.evaluations.values = 3 := by
  intro p search d d'
  have hout : (d.run #v[3] (ConjugateGradient.fresh ⟨.polakRibiere, none⟩) ()).result =
      .ok ⟨#v[0], 0, Space.norm (V := Vector (Exact ℚ) 1) #v[0], 1, .converged, .toleranceMet,
        ⟨9, 0, 0⟩, []⟩ := by decide +kernel
  have hout' : (d'.run #v[3] (ConjugateGradient.fresh ⟨.polakRibiere, none⟩) ()).result =
      .ok ⟨#v[0], 0, Space.norm (V := Vector (Exact ℚ) 1) #v[0], 1, .converged, .toleranceMet,
        ⟨3, 3, 0⟩, []⟩ := by decide +kernel
  exact ⟨_, _, hout, hout', rfl, rfl⟩

end Plan

end Downhill
