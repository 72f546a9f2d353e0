import Downhill.Descent.Script
import Downhill.Proofs.Descent.Course
import Downhill.Proofs.LineSearch.Trials
import Downhill.Proofs.LineSearch.Family
import Downhill.Proofs.Problem.Derivative

/-! What a run carries along. A property of the start that every search hands on, from the iterate
at which it was asked to the one that it found, is a property of every iterate of the run: nothing
else brings in an iterate that was not at hand. -/
namespace Downhill

section Bearing
variable {σ ρ α V M : Type} [Scalar α] [Space α V] {P : Iterate α V → Prop}

namespace Phase
variable {p : Phase α V}

/-- What a search that is over has found. -/
def found? : Phase α V → Option (Step α V)
  | searched _ _ _ step => some step
  | _ => none

/-- The iterate at hand has `P`, and so has the one that a search has found, if it is taken. -/
structure Bears (P : Iterate α V → Prop) (p : Phase α V) : Prop where
  iterate : P p.iterate
  found : ∀ step, p.found? = some step → step.success = true →
    Descent.finiteStep step = true → P step.reached

theorem bears_of_not_found (h : P p.iterate) (hnone : p.found? = none) : p.Bears P := by
  refine ⟨h, fun step hstep => ?_⟩
  rw [hnone] at hstep
  cases hstep

theorem Bears.answered {e : Event α V} (h : p.Bears P) (hdue : Due p e.query)
    (he : ∀ ray asked step, e = ⟨.search ray asked, .ok step⟩ → P ray.start →
      step.success = true → Descent.finiteStep step = true → P step.reached) :
    (p.answered e).Bears P := by
  rcases e with ⟨q, f | answer⟩
  · exact bears_of_not_found h.iterate rfl
  · -- Only a search that is answered brings in an iterate that was not at hand.
    cases hdue with
    | compute x => exact bears_of_not_found h.iterate rfl
    | descends hfin hneg => exact bears_of_not_found h.iterate rfl
    | replaced hfin hneg => exact bears_of_not_found h.iterate rfl
    | steepest x again => exact bears_of_not_found h.iterate rfl
    | search x direction again asked =>
      refine ⟨h.iterate, fun step hstep => ?_⟩
      cases hstep
      exact he _ _ _ rfl h.iterate
    | repeated hfail hfirst => exact bears_of_not_found h.iterate rfl
    | update hok hfin => exact bears_of_not_found (h.found _ rfl hok hfin) rfl

end Phase

namespace Descent
variable {d : Descent σ ρ α V M} {o : Oracle α V M}

/-- Searches hand `P` on, from the start of their ray to the iterate that is taken. -/
def HandsOn (d : Descent σ ρ α V M) (o : Oracle α V M) (P : Iterate α V → Prop) : Prop :=
  ∀ ray asked step, P ray.start →
    (∃ f l, ((d.serve o (.search ray asked)).perform f l).1 = .ok step) →
    step.success = true → finiteStep step = true → P step.reached

/-- Every phase of a run bears what its searches hand on. -/
theorem Transcript.bears {begun t : Flow σ ρ α V × Ledger α V} {events : List (Event α V)}
    (h : d.Transcript o begun events t) (hd : d.HandsOn o P) {p : Phase α V} (hp : p.Bears P)
    (hobeys : p.Obeys events) : (p.along events).Bears P := by
  induction h with
  | begin => exact hp
  | remark h r ih => exact ih hobeys
  | accept h y ih => exact ih hobeys
  | @call events f l h e t ht ih =>
    rw [Phase.obeys_append] at hobeys
    rw [Phase.along_append]
    refine (ih hobeys.1).answered (Phase.due_of_eq_some hobeys.2.1) ?_
    rintro ray asked step rfl hstart
    exact hd ray asked step hstart ⟨_, l, congrArg Prod.fst ht⟩

end Descent

end Bearing

/-! A result hangs together. However a run ends, it hands back the last iterate that it accepted,
with the value and the gradient norm that belong to it; what a search found at a trial reaches the
result only through a step that was accepted. -/

section Coherence
variable {σ α V M : Type} [Scalar α] [Space α V] {o : Oracle α V M}

namespace Descent

section Searches
variable {d : Descent σ Unit α V M} {s : LineSearch α} (hd : d.search = s.machine) (ho : o.Quiet)
include hd

/-- An answered call to a search of the library is a search. -/
theorem search_of_serve {o : Oracle α V M} {ray : Ray α V} {asked : Option α}
    {f : Flow σ Unit α V} {l : Ledger α V} {r : Except (Fault α) (Step α V)}
    (h : ((d.serve o (.search ray asked)).perform f l).1 = r) :
    ((s.search o ray asked).run.run l).1 = r := by
  rw [serve, hd] at h
  exact h

include ho

/-- Iterates at finite points, with their own values and gradients, are handed on. -/
theorem handsOn_faithful :
    d.HandsOn o.recorded fun y => Space.finite y.point = true ∧ o.Faithful y := by
  rintro ray asked step - ⟨f, l, hstep⟩ hsuccess hfinite
  have hhonest := s.yields_search ho ray asked l trivial
  rw [search_of_serve hd hstep] at hhonest
  simp only [finiteStep, Bool.and_eq_true] at hfinite
  exact ⟨hfinite.1.1, hhonest hsuccess⟩

end Searches

variable [Curved α V M] {d : Descent σ Unit α V M} {x : V} {state : σ}

/-- An outcome is about an iterate at a finite point, with the value and the gradient that the
oracle has there. -/
structure Describes (o : Oracle α V M) (outcome : Outcome α V) (y : Iterate α V) : Prop where
  finite : Space.finite y.point = true
  faithful : o.Faithful y
  point_eq : outcome.point = y.point
  value_eq : outcome.value = y.value
  norm_eq : outcome.gradientNorm = Space.norm y.gradient

/-- How a run from a finite point ends: at the point itself, where it is not open, and else at the
iterate that was accepted last. -/
theorem exists_described {s : LineSearch α} (hd : d.search = s.machine) (hx : Space.finite x = true)
    {outcome : Outcome α V} (hout : (d.run x state ()).result = .ok outcome) :
    ∃ y, Describes (d.problem.differentiable (Space.size x) d.strategy.needsHessian) outcome y ∧
      y.point = ((d.run x state ()).flow.trace.toList.map Iterate.point).getLastD x := by
  have ho := d.problem.quiet_differentiable (Space.size x) d.strategy.needsHessian
  rcases hstart : d.opened x with f | start | stop
  · rw [run_of_fault state () hstart] at hout
    cases hout
  · obtain ⟨hpoint, hfaithful⟩ := opened_faithful hx hstart
    obtain ⟨f, -, hfault, -⟩ | ⟨events, ledger, ⟨hobeys, prepared, -, htranscript⟩, hend⟩ :=
      run_converses state () hstart
    · cases hfault.symm.trans hout
    obtain ⟨stop, haccepted, hending, rfl⟩ := hend outcome hout
    have hbears := (htranscript.bears (handsOn_faithful hd ho)
      (Phase.bears_of_not_found (p := .ready start) ⟨hpoint ▸ hx, hfaithful⟩ rfl) hobeys).iterate
    have hfinal : stop.final = (d.run x state ()).flow.trace.toList.getLastD start := by
      rw [hending.final_eq, Phase.iterate_along, haccepted]
      rfl
    refine ⟨stop.final, ⟨?_, ?_, rfl, rfl, rfl⟩, ?_⟩
    · exact hending.final_eq ▸ hbears.1
    · exact hending.final_eq ▸ hbears.2
    · have hmap : ((d.run x state ()).flow.trace.toList.map Iterate.point).getLastD start.point =
          ((d.run x state ()).flow.trace.toList.getLastD start).point := List.getLastD_map
      rw [hfinal, ← hmap, hpoint]
  · obtain ⟨hpoint, hfaithful⟩ := opened_faithful hx hstart
    obtain ⟨l, hrun⟩ := run_of_stop state () hstart
    rw [hrun] at hout ⊢
    cases hout
    exact ⟨stop.final, ⟨hpoint ▸ hx, hfaithful, rfl, rfl, rfl⟩, hpoint⟩

/-- A result hangs together, for any problem, any strategy in any state, any search of the library,
any config and every finite point, and however the run ends. It is about the last iterate that was
accepted in the course of the calls, or about the point itself if there is none; its value is that
of the problem there, and its gradient norm is the norm of the gradient there, which is the
problem's own or, where it has none, that of central differences of the value. -/
theorem run_coherent (p : Problem α V M) (strategy : Strategy σ α V M) (s : LineSearch α)
    (config : Config α) (hx : Space.finite x = true) {outcome : Outcome α V}
    (hout : ((⟨p, strategy, s.machine, config⟩ : Descent σ Unit α V M).run x state ()).result =
      .ok outcome) :
    let d : Descent σ Unit α V M := ⟨p, strategy, s.machine, config⟩
    let flow := (d.run x state ()).flow
    let path := flow.trace.toList
    ((∀ start, d.opened x ≠ .ok (.inl start)) → path = []) ∧
    (∀ start, d.opened x = .ok (.inl start) → ∃ events ledger,
      d.Converses x start state () events flow ledger ∧
      path = (Phase.ready start).accepted events) ∧
    Space.finite outcome.point = true ∧
    outcome.point = (path.map Iterate.point).getLastD x ∧
    p.value outcome.point = .ok outcome.value ∧
    ∃ gradient, outcome.gradientNorm = Space.norm gradient ∧
      (p.hasGradient = true → p.gradient outcome.point = .ok gradient) ∧
      (p.hasGradient = false →
        Difference.gradientAt p.value Difference.defaultStep outcome.point = .ok gradient) := by
  intro d flow path
  obtain ⟨y, ⟨hfinite, ⟨hvalue, hgradient⟩, hpoint, houtvalue, hnorm⟩, hlast⟩ :=
    exists_described (d := d) rfl hx hout
  refine ⟨fun hclosed => ?_, fun start hstart => ?_, ?_, ?_, ?_, y.gradient, hnorm, ?_⟩
  · exact congrArg Array.toList (trace_run_of_not_opened state () hclosed)
  · obtain ⟨f, -, hfault, -⟩ | ⟨events, ledger, hconverses, hend⟩ :=
      run_converses state () hstart
    · cases hfault.symm.trans hout
    obtain ⟨stop, haccepted, -, -⟩ := hend outcome hout
    exact ⟨events, ledger, hconverses, haccepted.symm⟩
  · rw [hpoint]
    exact hfinite
  · rw [hpoint]
    exact hlast
  · rw [hpoint, houtvalue, ← hvalue, Problem.valueAt_differentiable]
  · rw [hpoint]
    exact Problem.gradient_of_differentiable p _ hgradient

/-- The second search meets a value that is none, and the result is that of the first step. -/
theorem run_coherent_undefined :
    let p : Problem (Exact ℚ) (Vector (Exact ℚ) 2) (Matrix (Exact ℚ) 2) :=
      { LineSearch.bowl with
        value := fun v => if first v < 2 then LineSearch.bowl.value v else .ok .undefined }
    let d : Descent Script.Tally Unit (Exact ℚ) (Vector (Exact ℚ) 2) (Matrix (Exact ℚ) 2) :=
      ⟨p, Script.Directions.strategy
          ⟨"fixed", false, [.along #v[1, 0], .along #v[5, 0]], [none]⟩,
        (LineSearch.backtracking .standard).machine, .standard⟩
    let record := d.run #v[0, 0] {} ()
    record.flow.trace.toList.map Iterate.point = [#v[1, 0]] ∧
    ∃ outcome, record.result = .ok outcome ∧ outcome.status = .numericalError ∧
      outcome.point = #v[1, 0] ∧ p.value outcome.point = .ok outcome.value ∧
      ∃ gradient, outcome.gradientNorm = Space.norm gradient ∧
        p.gradient outcome.point = .ok gradient := by
  intro p d record
  have hpath : record.flow.trace.toList.map Iterate.point = [#v[1, 0]] := by decide +kernel
  have hout : record.result = .ok ⟨#v[1, 0], -2, Space.norm (V := Vector (Exact ℚ) 2) #v[-1, -2],
      1, .numericalError, .numerical (.scalar (.trial "objective" 1) .undefined),
      ⟨3, 2, 0⟩, []⟩ := by decide +kernel
  obtain ⟨-, -, -, hlast, hvalue, gradient, hnorm, hgradient, -⟩ :=
    run_coherent p _ (.backtracking .standard) .standard (by decide +kernel) hout
  refine ⟨hpath, _, hout, rfl, ?_, hvalue, gradient, hnorm, hgradient rfl⟩
  exact hlast.trans (congrArg (·.getLastD #v[0, 0]) hpath)

end Descent

end Coherence

end Downhill
