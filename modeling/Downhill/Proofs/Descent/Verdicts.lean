import Downhill.Descent.Script
import Downhill.Proofs.Descent.Course
import Downhill.Proofs.LineSearch.Family

/-! What an outcome says of its run. The status tells which end tests were met, the history and the
counter tell the iterates that were accepted, and with the ordinary end test success tells that the
gradient is small. -/
namespace Downhill
variable {σ ρ α V M : Type}

theorem RunMessage.untaken_eq_zero {message : RunMessage α} (h : message ≠ .stepNotFinite) :
    message.untaken = 0 := by
  cases message <;> first | rfl | exact absurd rfl h

variable [Scalar α] [Space α V]

/-- Where no call is due a run reports a failed search or a numerical error. -/
theorem Phase.status_of_closing {p : Phase α V} {status : Status} {message : RunMessage α}
    (h : p.closing = some (status, message)) :
    status = .searchFailed ∨ status = .numericalError := by
  have hclosing : ∀ r ∈ p.closing, r.1 = .searchFailed ∨ r.1 = .numericalError := by
    unfold closing
    split <;> (try split_ifs) <;> simp
  exact hclosing _ h

namespace Descent
variable {d : Descent σ ρ α V M} {x : V} {start : Iterate α V} {path : List (Iterate α V)}

omit [Scalar α] [Space α V] in
/-- The last test is that of the last step. -/
theorem getLast?_tests : (d.tests start path).getLast? =
    some (d.verdict ((start :: path).dropLast.getLastD start) (path.getLastD start)) := by
  rcases List.eq_nil_or_concat path with rfl | ⟨path, y, rfl⟩
  · rfl
  · rw [List.concat_eq_append, tests_snoc, List.getLast?_concat, ← List.cons_append,
      List.dropLast_concat, List.getLastD_cons, List.getLastD_concat]

namespace Ending
variable {p : Phase α V} {stop : Stop α V} (h : d.Ending start path p stop)
include h

theorem earlier_tests : ∀ r ∈ (d.tests start path).dropLast, r = .ok false := by
  cases h with
  | converged htests hrest => rwa [htests, List.dropLast_concat]
  | capped htests _ => exact fun r hr => htests r (List.mem_of_mem_dropLast hr)
  | closed htests _ _ => exact fun r hr => htests r (List.mem_of_mem_dropLast hr)

theorem converged_iff :
    stop.status = .converged ↔ (d.tests start path).getLast? = some (.ok true) := by
  have hnone : (∀ r ∈ d.tests start path, r = .ok false) →
      (d.tests start path).getLast? ≠ some (.ok true) := fun htests hlast =>
    nomatch htests _ (List.mem_of_getLast? hlast)
  cases h with
  | converged htests hrest => simp [htests]
  | capped htests _ => exact ⟨nofun, fun hlast => absurd hlast (hnone htests)⟩
  | closed htests _ hclosing =>
    refine ⟨?_, fun hlast => absurd hlast (hnone htests)⟩
    rintro rfl
    exact absurd (Phase.status_of_closing hclosing) (by simp)

theorem capped_iff : stop.status = .iterationCap ↔
    (∀ r ∈ d.tests start path, r = .ok false) ∧ path.length = d.config.maxIters := by
  cases h with
  | converged htests hrest =>
    refine ⟨nofun, fun ⟨hall, _⟩ => ?_⟩
    rw [htests] at hall
    exact nomatch hall (.ok true) (by simp)
  | capped htests hlength => exact ⟨fun _ => ⟨htests, hlength⟩, fun _ => rfl⟩
  | closed htests hlength hclosing =>
    refine ⟨?_, fun hcap => absurd hcap.2 hlength.ne⟩
    rintro rfl
    exact absurd (Phase.status_of_closing hclosing) (by simp)

/-- A run that is stopped in the middle met no test and had steps left. -/
theorem closed_of (hconverged : stop.status ≠ .converged) (hcap : stop.status ≠ .iterationCap) :
    (∀ r ∈ d.tests start path, r = .ok false) ∧ path.length < d.config.maxIters := by
  cases h with
  | converged => exact absurd rfl hconverged
  | capped => exact absurd rfl hcap
  | closed htests hlength _ => exact ⟨htests, hlength⟩

end Ending

/-- With the ordinary test the last verdict is about the gradient at the last iterate. -/
theorem getLast?_tests_gradientTest (hd : d.problem.converged = gradientTest) :
    (d.tests start path).getLast? = some (.ok (withinTolerance
      (Space.norm (path.getLastD start).gradient) d.config.tolerance)) := by
  rw [getLast?_tests, verdict, hd]
  rfl

variable [Curved α V M] {state : σ} {search : ρ} {outcome : Outcome α V}

/-- What an outcome reports of a run from an open start, with any problem, strategy, search and
config. The iterates noted in the trace are those that were accepted in the course of the calls, in
their order. The run has converged if and only if the last of its tests was met, and no earlier one
was; it has reached its cap if and only if no test was met in as many steps; otherwise no test was
met and steps were left. The history, if it is kept, holds the start and the points of the trace.
The counter is the number of accepted iterates, and one more where a step to something that is not
finite was not taken. With the ordinary test success means a small gradient. -/
theorem run_reports (hstart : d.opened x = .ok (.inl start))
    (hout : (d.run x state search).result = .ok outcome) :
    let flow := (d.run x state search).flow
    let path := flow.trace.toList
    let tests := d.tests start path
    (∃ events ledger, d.Converses x start state search events flow ledger ∧
      path = (Phase.ready start).accepted events) ∧
    (∀ r ∈ tests.dropLast, r = .ok false) ∧
    (outcome.status = .converged ↔
      d.verdict ((start :: path).dropLast.getLastD start) (path.getLastD start) = .ok true) ∧
    (outcome.status = .iterationCap ↔
      (∀ r ∈ tests, r = .ok false) ∧ path.length = d.config.maxIters) ∧
    (outcome.status ≠ .converged → outcome.status ≠ .iterationCap →
      (∀ r ∈ tests, r = .ok false) ∧ path.length < d.config.maxIters) ∧
    outcome.history = (if d.config.history then x :: path.map Iterate.point else []) ∧
    (outcome.message = .stepNotFinite → outcome.iterations = path.length + 1) ∧
    (outcome.message ≠ .stepNotFinite → outcome.iterations = path.length) ∧
    (d.problem.converged = gradientTest → (outcome.success = true ↔
      outcome.gradientNorm ≤ Scalar.larger d.config.tolerance leastTolerance)) := by
  intro flow path tests
  obtain ⟨f, -, hfault, -⟩ | ⟨events, ledger, hconverses, hend⟩ :=
    run_converses state search hstart
  · rw [hfault] at hout
    cases hout
  obtain ⟨stop, haccepted, hending, rfl⟩ := hend outcome hout
  have hiterations := hending.iterations_eq
  refine ⟨⟨events, ledger, hconverses, haccepted.symm⟩, hending.earlier_tests,
    ?_, hending.capped_iff, hending.closed_of, rfl, fun hm => ?_, fun hm => ?_, fun hd => ?_⟩
  · refine hending.converged_iff.trans ?_
    rw [getLast?_tests, Option.some_inj]
  · have hmessage : stop.message = .stepNotFinite := hm
    rw [hmessage] at hiterations
    exact hiterations
  · have hmessage : stop.message ≠ .stepNotFinite := hm
    rw [RunMessage.untaken_eq_zero hmessage] at hiterations
    exact hiterations
  · have hfinal : stop.final = path.getLastD start := by
      rw [hending.final_eq, Phase.iterate_along, haccepted]
      rfl
    rw [Outcome.success_eq_true_iff]
    refine hending.converged_iff.trans ?_
    rw [getLast?_tests_gradientTest hd, ← hfinal]
    simp [withinTolerance, outcome]

/-- One step to `(3, 0)`, and then one to a value that is not finite, which counts and is not
taken. -/
theorem run_reports_untaken :
    let d : Descent Script.Tally ℕ (Exact ℚ) (Vector (Exact ℚ) 2) (Matrix (Exact ℚ) 2) :=
      ⟨LineSearch.bowl, Script.Directions.strategy ⟨"steepest", false, [.steepest], [none]⟩,
        Script.search [⟨1, ⟨#v[3, 0], 0, #v[3, 0]⟩, true, ""⟩,
          ⟨1, ⟨#v[0, 0], .infinity true, #v[3, 0]⟩, true, ""⟩],
        { Config.standard with history := true }⟩
    let record := d.run #v[0, 0] {} 0
    ∃ outcome, record.result = .ok outcome ∧ outcome.message = .stepNotFinite ∧
      record.flow.trace.toList.length = 1 ∧ outcome.iterations = 2 ∧
      outcome.history = [#v[0, 0], #v[3, 0]] ∧
      ¬ outcome.gradientNorm ≤ Scalar.larger d.config.tolerance leastTolerance := by
  intro d record
  have hstart : d.opened #v[0, 0] = .ok (.inl ⟨#v[0, 0], 0, #v[-3, -3]⟩) := by decide +kernel
  have hpath : record.flow.trace.toList.map Iterate.point = [#v[3, 0]] := by decide +kernel
  have hlength : record.flow.trace.toList.length = 1 := by
    simpa using congrArg List.length hpath
  have hout : record.result = .ok ⟨#v[3, 0], 0, Space.norm (V := Vector (Exact ℚ) 2) #v[3, 0], 2,
      .numericalError, .stepNotFinite, ⟨1, 1, 0⟩, [#v[0, 0], #v[3, 0]]⟩ := by decide +kernel
  obtain ⟨-, -, -, -, -, hhistory, hodd, -, hsuccess⟩ := run_reports hstart hout
  refine ⟨_, hout, rfl, hlength, ?_, ?_, fun hsmall => ?_⟩
  · exact (hodd rfl).trans (congrArg (· + 1) hlength)
  · exact hhistory.trans (congrArg (List.cons _) hpath)
  · exact absurd ((hsuccess rfl).mpr hsmall) (by decide)

end Descent

end Downhill
