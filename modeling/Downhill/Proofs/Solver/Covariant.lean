import Downhill.Proofs.Descent.Straight
import Downhill.Proofs.LineSearch.MoreThuente.Motion
import Downhill.Proofs.Newton.Affine
import Downhill.Proofs.Solver.OneStep
import Downhill.Proofs.Solver.Resume
import Downhill.Proofs.Solver.SteepestDescent

/-! Newton's method does not see affine coordinates. As long as the Hessians are positive definite
and the searches succeed, the iterations of a run and of the run of its image are images of each
other; only the end tests, which see the length of the gradient, and steepest descent, which takes
the place of a direction along which a search failed, depend on the coordinates. -/
open Matrix

namespace Downhill
variable {K : Type} [ExactField K] {n : ℕ}

open Exact

namespace ConvexQuadratic
variable (q : ConvexQuadratic K n) (m : AffineChange K n)

/-- A quadratic function in affine coordinates, but for its value at the origin. -/
def carried : ConvexQuadratic K n where
  matrix := m.matrixᵀ * q.matrix * m.matrix
  linear := -m.pull (q.gradient m.center)
  symm := isSymm_congruent q.symm
  pos := m.definite_congruent q.pos

theorem gradient_carried : (q.carried m).gradient = m.gradient q.gradient := by
  funext z
  rw [AffineChange.gradient, AffineChange.back, add_comm, gradient_add, m.pull_add, gradient,
    carried, m.congruent_mulVec, sub_neg_eq_add, add_comm]

theorem value_carried (hoffset : q.value m.center = -m.offset) :
    (q.carried m).value = m.value q.value := by
  funext z
  rw [AffineChange.value, AffineChange.back, add_comm (m.matrix *ᵥ z), value_add, hoffset, value,
    carried, m.form_congruent, neg_dotProduct, m.pull_dotProduct]
  push_cast
  ring

/-- The function in the new coordinates is a problem of its own. -/
theorem given_carried (hoffset : q.value m.center = -m.offset) :
    (q.carried m).objective.problem.Given (m.value q.value) (m.gradient q.gradient) := by
  rw [← q.value_carried m hoffset, ← q.gradient_carried m]
  exact (q.carried m).given

end ConvexQuadratic

/-- Newton's method with a search of the library. -/
abbrev Newton.descent (c : Newton (Exact K)) (s : LineSearch (Exact K)) (config : Config (Exact K))
    (p : Problem (Exact K) (Vector (Exact K) n) (Matrix (Exact K) n)) :
    Descent (Newton.State (Exact K)) Unit (Exact K) (Vector (Exact K) n) (Matrix (Exact K) n) :=
  ⟨p, c.strategy, s.machine, config⟩

namespace Newton

section OneRun
variable [TrueRoot K] {c : Newton (Exact K)} (hc : c.check = .ok ()) {s : LineSearch (Exact K)}
  {config : Config (Exact K)} {p : Problem (Exact K) (Vector (Exact K) n) (Matrix (Exact K) n)}
  {f : (Fin n → K) → K} {g : (Fin n → K) → Fin n → K} {h : (Fin n → K) → SquareMatrix K n}
  (hsymm : ∀ x, (h x).IsSymm)
  {o : Oracle (Exact K) (Vector (Exact K) n) (Matrix (Exact K) n)}
  (ho : ∀ x, Replies (o.hessian (lift x)) fun a => a = liftMatrix (h x))
  {fl : Flow (Newton.State (Exact K)) Unit (Exact K) (Vector (Exact K) n)} {x : Fin n → K}
  {events : List (Event (Exact K) (Vector (Exact K) n))}

omit [TrueRoot K] in
/-- A search along a direction that does not descend is refused. -/
theorem exists_refusal {ray : Ray (Exact K) (Vector (Exact K) n)}
    (hflat : ¬ Space.inner ray.start.gradient ray.direction < 0) :
    ∃ e, (c.descent s config p).reply o fl (.search ray none) = .error e := by
  have hends := s.ensures_descending (o := o) ray none {} trivial
  cases hreply : (c.descent s config p).reply o fl (.search ray none) with
  | error e => exact ⟨e, rfl⟩
  | ok step =>
    have hsearch : ((s.search o ray none).run.run {}).1 = .ok step := hreply
    rw [hsearch] at hends
    exact absurd hends hflat

omit [TrueRoot K] in
/-- Nothing comes of an iteration at a point without slope. -/
theorem fruitless_of_stationary {v : Fin n → K}
    (hears : (Phase.ready (iterateAt f g x)).Hears ((c.descent s config p).reply o fl) events)
    (hcompute : (c.descent s config p).reply o fl (.compute (iterateAt f g x)) = .ok (lift v))
    (hg : g x = 0) : (Phase.ready (iterateAt f g x)).Fruitless events := by
  let A := (c.descent s config p).reply o fl
  let y := iterateAt f g x
  have hflat : ∀ d, ¬ Space.inner y.gradient (lift d) < 0 := by
    intro d hneg
    rw [show Space.inner y.gradient (lift d) = _ from dot_lift (g x) d, hg,
      zero_dotProduct] at hneg
    exact lt_irrefl 0 (number_lt.mp hneg)
  -- The run turns to the opposite of the gradient, along which nothing descends either.
  have hsteepest : ¬ Space.inner y.gradient (-y.gradient) < 0 := neg_lift (g x) ▸ hflat (-g x)
  have hsearch : ∃ e, A (.search ⟨y, -y.gradient⟩ none) = .error e := exists_refusal hsteepest
  obtain ⟨e, hrefused⟩ := hsearch
  exact hears.idle hcompute (allFinite_lift v) (hflat v) rfl rfl hrefused

include hc hsymm ho

/-- An iteration at a positive definite Hessian searches along the direction that solves the
equation of Newton, if anything comes of it. -/
theorem searches_of_hears
    (hears : (Phase.ready (iterateAt f g x)).Hears ((c.descent s config p).reply o fl) events)
    (hpos : Definite (h x)) :
    (Phase.ready (iterateAt f g x)).Fruitless events ∨ ∃ v step, h x *ᵥ v = -g x ∧
      ((s.search o (rayAt f g x v) none).run.run {}).1 = .ok step ∧
      (Phase.ready (iterateAt f g x)).Leads ((c.descent s config p).reply o fl) step events := by
  obtain ⟨e, hcompute⟩ | ⟨v, hv, hcompute⟩ :=
    direction_cases hc (hsymm x) hpos (x := iterateAt f g x) rfl (ho x) (fl.strategy, {})
  · exact .inl (hears.fruitless_of_error rfl hcompute)
  by_cases hg : g x = 0
  · exact .inl (fruitless_of_stationary hears hcompute hg)
  have hneg : Space.inner (iterateAt f g x).gradient (lift v) < 0 := by
    rw [show Space.inner (iterateAt f g x).gradient (lift v) = _ from dot_lift (g x) v]
    exact number_lt.mpr (hpos.descends hv hg)
  obtain hnone | ⟨step, hsearch, hleads⟩ := hears.iteration hcompute (allFinite_lift v) hneg rfl
  · exact .inl hnone
  · exact .inr ⟨v, step, hv, hsearch, hleads⟩

end OneRun

section TwoRuns
variable [TrueRoot K] {c : Newton (Exact K)} (hc : c.check = .ok ()) {s : LineSearch (Exact K)}
  (hs : s.check = .ok ()) {config config' : Config (Exact K)} {m : AffineChange K n}
  {p p' : Problem (Exact K) (Vector (Exact K) n) (Matrix (Exact K) n)}
  {f : (Fin n → K) → K} {g : (Fin n → K) → Fin n → K} {h : (Fin n → K) → SquareMatrix K n}
  (hsymm : ∀ x, (h x).IsSymm)
  {o o' : Oracle (Exact K) (Vector (Exact K) n) (Matrix (Exact K) n)}
  (hcarries : m.Carries f g o o')
  (ho : ∀ x, Replies (o.hessian (lift x)) fun a => a = liftMatrix (h x))
  (ho' : ∀ x, Replies (o'.hessian (lift x)) fun a => a = liftMatrix (m.hessian h x))
  {fl fl' : Flow (State (Exact K)) Unit (Exact K) (Vector (Exact K) n)}
include hc hs hsymm hcarries ho ho'

/-- Two iterations from an iterate and its image, where the Hessian is positive definite. -/
theorem steps_of_hears {x : Fin n → K} {events events' : List (Event (Exact K) _)}
    (hears : (Phase.ready (iterateAt f g x)).Hears ((c.descent s config p).reply o fl) events)
    (hears' : (Phase.ready (m.iterate (iterateAt f g x))).Hears
      ((c.descent s config' p').reply o' fl') events') (hpos : Definite (h x)) :
    (Phase.ready (iterateAt f g x)).Fruitless events ∨
    (Phase.ready (m.iterate (iterateAt f g x))).Fruitless events' ∨
    ∃ step, (∃ z, step.reached = iterateAt f g z) ∧
      (Phase.ready (iterateAt f g x)).Leads ((c.descent s config p).reply o fl) step events ∧
      (Phase.ready (m.iterate (iterateAt f g x))).Leads ((c.descent s config' p').reply o' fl')
        (m.step step) events' := by
  have hsymm' : ∀ z, (m.hessian h z).IsSymm := fun z => isSymm_congruent (hsymm _)
  have hpos' : Definite (m.hessian h (m.point x)) := by
    rw [m.hessian_point]
    exact m.definite_congruent hpos
  rw [← m.iterateAt_point] at hears' ⊢
  obtain hnone | ⟨v, step, hv, hsearch, hleads⟩ := searches_of_hears hc hsymm ho hears hpos
  · exact .inl hnone
  obtain hnone | ⟨v', step', hv', hsearch', hleads'⟩ :=
    searches_of_hears hc hsymm' ho' hears' hpos'
  · exact .inr (.inl hnone)
  rw [m.hessian_point, m.gradient_point] at hv'
  obtain rfl := m.push_eq_of_solves (hsymm x) hpos hv hv'
  have hsteps : m.Steps f g step step' := by
    have hsearches := LineSearch.matches_search hcarries hs x v none
    rw [m.ray_rayAt] at hsearches
    exact hsearches.answers hsearch hsearch'
  obtain ⟨rfl, hreached⟩ := hsteps
  exact .inr (.inr ⟨step, hreached, hleads, hleads'⟩)

/-- The first steps that the searches of both runs find are images of each other. -/
theorem step_eq_of_hears {x : Fin n → K} {events events' : List (Event (Exact K) _)}
    (hears : (Phase.ready (iterateAt f g x)).Hears ((c.descent s config p).reply o fl) events)
    (hears' : (Phase.ready (m.iterate (iterateAt f g x))).Hears
      ((c.descent s config' p').reply o' fl') events') (hpos : Definite (h x))
    {step step' : Step (Exact K) (Vector (Exact K) n)} (hstep : (found events)[0]? = some step)
    (hstep' : (found events')[0]? = some step') : step' = m.step step := by
  obtain ⟨hnone, -⟩ | ⟨hnone, -⟩ | ⟨first, -, ⟨_, hfound, -⟩, _, hfound', -⟩ :=
    steps_of_hears hc hs hsymm hcarries ho ho' hears hears' hpos
  · rw [hnone] at hstep
    cases hstep
  · rw [hnone] at hstep'
    cases hstep'
  · rw [hfound] at hstep
    rw [hfound'] at hstep'
    cases hstep
    cases hstep'
    rfl

/-- For as long as the Hessians are positive definite and the searches succeed, the iterations of
the second run begin at the images, unless one of the runs is over. -/
theorem arrives (k : ℕ) : ∀ {x : Fin n → K} {events events' : List (Event (Exact K) _)},
    (Phase.ready (iterateAt f g x)).Hears ((c.descent s config p).reply o fl) events →
    (Phase.ready (m.iterate (iterateAt f g x))).Hears ((c.descent s config' p').reply o' fl')
      events' →
    let path := visited (iterateAt f g x) events
    let path' := visited (m.iterate (iterateAt f g x)) events'
    (∀ step ∈ (found events).take k, step.success = true) →
    (∀ z, iterateAt f g z ∈ path.take k → Definite (h z)) →
    path[k]? = none ∧ (found events)[k]? = none ∨ path'[k]? = none ∧ (found events')[k]? = none ∨
    ∃ z rest rest',
      (Phase.ready (iterateAt f g z)).Hears ((c.descent s config p).reply o fl) rest ∧
      (Phase.ready (m.iterate (iterateAt f g z))).Hears ((c.descent s config' p').reply o' fl')
        rest' ∧
      path[k]? = some (iterateAt f g z) ∧ path'[k]? = some (m.iterate (iterateAt f g z)) ∧
      (found events)[k]? = (found rest)[0]? ∧ (found events')[k]? = (found rest')[0]? := by
  induction k with
  | zero =>
    intro x events events' hears hears' path path' _ _
    exact .inr (.inr ⟨x, events, events', hears, hears', rfl, rfl, rfl, rfl⟩)
  | succ k ih =>
    intro x events events' hears hears' path path' hok hpos
    have hhere : Definite (h x) := hpos x List.mem_cons_self
    obtain ⟨hfound, hnone⟩ | ⟨hfound, hnone⟩ | ⟨step, ⟨z, hz⟩, hleads, hleads'⟩ :=
      steps_of_hears hc hs hsymm hcarries ho ho' hears hears' hhere
    · simp [path, visited, hfound, hnone]
    · simp [path', visited, hfound, hnone]
    obtain ⟨steps, hfound, hnext⟩ := hleads
    obtain ⟨steps', hfound', hnext'⟩ := hleads'
    rw [hfound, List.take_succ_cons] at hok
    obtain ⟨hsuccess, hok⟩ := List.forall_mem_cons.mp hok
    obtain ⟨rfl, hnone⟩ | ⟨rest, rfl, haccepted, hrest⟩ := hnext hsuccess
    · simp [path, visited, hfound, hnone]
    obtain ⟨rfl, hnone⟩ | ⟨rest', rfl, haccepted', hrest'⟩ := hnext' hsuccess
    · simp [path', visited, hfound', hnone]
    rw [hz] at haccepted hrest
    have hreached : (m.step step).reached = m.iterate (iterateAt f g z) := congrArg m.iterate hz
    rw [hreached] at haccepted' hrest'
    have hpath : path = iterateAt f g x :: visited (iterateAt f g z) rest :=
      congrArg (iterateAt f g x :: ·) haccepted
    have hpath' : path' = m.iterate (iterateAt f g x) :: visited _ rest' :=
      congrArg (m.iterate (iterateAt f g x) :: ·) haccepted'
    simp only [hpath, hpath', hfound, hfound', List.getElem?_cons_succ]
    refine ih hrest hrest' hok fun w hw => hpos w ?_
    rw [hpath, List.take_succ_cons]
    exact List.mem_cons_of_mem _ hw

end TwoRuns

section Runs
variable {c : Newton (Exact K)} {s : LineSearch (Exact K)} {config : Config (Exact K)}
  {p : Problem (Exact K) (Vector (Exact K) n) (Matrix (Exact K) n)} {x : Vector (Exact K) n}
  {start : Iterate (Exact K) (Vector (Exact K) n)}

/-- All calls of a run have the answers that they have at its beginning. -/
theorem hears_of_converses {events : List (Event (Exact K) (Vector (Exact K) n))}
    {flow : Flow (State (Exact K)) Unit (Exact K) (Vector (Exact K) n)}
    {ledger : Ledger (Exact K) (Vector (Exact K) n)}
    (h : (c.descent s config p).Converses x start fresh () events flow ledger) :
    (Phase.ready start).Hears ((c.descent s config p).reply (p.work n true) (.start fresh () #[]))
      events := by
  obtain ⟨hobeys, prepared, -, htranscript⟩ := h
  have ho := p.quiet_differentiable n true
  exact ⟨hobeys, fun e he => htranscript.answer_eq rfl ho.lockstep_value ho.lockstep_gradient
    (c.memoryless p) _ he⟩

/-- A run from an open start converses. -/
theorem exists_converses (hstart : (c.descent s config p).opened x = .ok (.inl start)) :
    let record := (c.descent s config p).run x fresh ()
    ∃ events ledger, (c.descent s config p).Converses x start fresh () events record.flow ledger ∧
      ∀ outcome, record.result = .ok outcome →
        (Phase.ready start).accepted events = record.flow.trace.toList := by
  obtain ⟨e, hrefused, -⟩ | ⟨events, ledger, hconverses, hend⟩ :=
    Descent.run_converses (fresh : State (Exact K)) () hstart
  · cases hrefused
  · refine ⟨events, ledger, hconverses, fun outcome houtcome => ?_⟩
    obtain ⟨_, haccepted, -⟩ := hend outcome houtcome
    exact haccepted

end Runs

section Quadratics
variable [TrueRoot K] {q : ConvexQuadratic K n}
  {p : Problem (Exact K) (Vector (Exact K) n) (Matrix (Exact K) n)} (hp : q.objective.Posed p)
  {c : Newton (Exact K)} (hc : c.check = .ok ()) {s : LineSearch (Exact K)}
  (hs : s.TakesFullSteps) {config : Config (Exact K)} {x : Fin n → K}
include hp hc hs

/-- On a quadratic function the first search succeeds. -/
theorem success_of_hears {fl : Flow (State (Exact K)) Unit (Exact K) (Vector (Exact K) n)}
    {events : List (Event (Exact K) (Vector (Exact K) n))} (hx : q.gradient x ≠ 0)
    (hears : (Phase.ready (q.iterate x)).Hears ((c.descent s config p).reply (p.work n true) fl)
      events) : ∀ step ∈ (found events).take 1, step.success = true := by
  obtain ⟨hnone, -⟩ | ⟨v, step, hv, hsearch, steps, hfound, -⟩ :=
    searches_of_hears hc (fun _ => q.symm) (fun y => hp.replies_hessian y)
      (f := q.value) (g := q.gradient) hears q.pos
  · simp [hnone]
  obtain rfl : q.minimizer - x = v := q.mulVec_injective ((q.mulVec_sub_minimizer x).trans hv.symm)
  obtain ⟨_, l, hrun, values, gradients, message, rfl⟩ :=
    (hs.replies_search (hp.bottoms hx)).exists_answer {}
  obtain rfl := Except.ok.inj (hsearch.symm.trans (congrArg Prod.fst hrun))
  simp [hfound, Step.accepted]

/-- A run on a quadratic function accepts the minimizer and nothing else. -/
theorem exists_path (hn : 0 < n) (hcap : 0 < config.maxIters) (htolerance : 0 < config.tolerance)
    (hfar : ¬ withinTolerance (norm (lift (q.gradient x))) config.tolerance = true) :
    let record := (c.descent s config p).run (lift x) fresh ()
    ∃ events ledger,
      (c.descent s config p).Converses (lift x) (q.iterate x) fresh () events record.flow ledger ∧
      (∀ step ∈ (found events).take 1, step.success = true) ∧
      ∃ y, (Phase.ready (q.iterate x)).accepted events = [y] ∧ y.point = lift q.minimizer := by
  obtain ⟨-, trace, ledger, hrun⟩ := hp.exists_run hn hc hs hcap htolerance x
  rw [q.finish_of_not_near hfar] at hrun
  obtain ⟨e, hrefused, -⟩ | ⟨events, ledger', hconverses, hend⟩ :=
    Descent.run_converses (fresh : State (Exact K)) () (hp.opened c s config x)
  · cases hrefused
  obtain ⟨stop, hpath, hending, houtcome⟩ := hend _ hrun
  have hmessage : .toleranceMet = stop.message := congrArg Outcome.message houtcome
  have hiterations : 1 = stop.iterations := congrArg Outcome.iterations houtcome
  have hpoint : lift q.minimizer = stop.final.point := congrArg Outcome.point houtcome
  have hlength : ((Phase.ready (q.iterate x)).accepted events).length = 1 := by
    rw [hending.iterations_eq, ← hpath, ← hmessage] at hiterations
    exact hiterations.symm
  obtain ⟨y, hy⟩ := List.length_eq_one_iff.mp hlength
  refine ⟨events, ledger', hconverses, ?_, y, hy, ?_⟩
  · exact success_of_hears hp hc hs (q.gradient_ne_zero hfar htolerance)
      (hears_of_converses hconverses)
  · rw [hpoint, hending.final_eq, Phase.iterate_along, hy]
    rfl

end Quadratics

variable [TrueRoot K]

/-- Newton's method is affine covariant for as long as its own directions serve. For every problem
with its own derivatives, every invertible matrix, shift of the origin and offset of the values, and
every search of the library, both runs converse. Up to the first search that failed, and for as
long as the Hessians of the first run are positive definite, the iterates of the second are the
images of the iterates of the first, with values that are higher by the offset, unless a run is
over. The next searches, the one that failed included, found steps of the same length by as many
trials and ended for the same reason. The end tests and the settings may be any. -/
theorem run_covariant (c : Newton (Exact K)) (hc : c.check = .ok ()) (s : LineSearch (Exact K))
    (hs : s.check = .ok ()) (config : Config (Exact K)) (m : AffineChange K n)
    {p p' : Problem (Exact K) (Vector (Exact K) n) (Matrix (Exact K) n)}
    {f : (Fin n → K) → K} {g : (Fin n → K) → Fin n → K} {h : (Fin n → K) → SquareMatrix K n}
    (hp : p.Given f g) (hh : p.GivenHessian h) (hsymm : ∀ x, (h x).IsSymm)
    (hp' : p'.Given (m.value f) (m.gradient g)) (hh' : p'.GivenHessian (m.hessian h))
    (x : Fin n → K) :
    let d := c.descent s config p
    let d' := c.descent s config p'
    let record := d.run (lift x) fresh ()
    let record' := d'.run (lift (m.point x)) fresh ()
    let start := iterateAt f g x
    let start' := m.iterate start
    (∃ events ledger, d.Converses (lift x) start fresh () events record.flow ledger ∧
      ∀ outcome, record.result = .ok outcome →
        (Phase.ready start).accepted events = record.flow.trace.toList) ∧
    (∃ events ledger,
      d'.Converses (lift (m.point x)) start' fresh () events record'.flow ledger ∧
      ∀ outcome, record'.result = .ok outcome →
        (Phase.ready start').accepted events = record'.flow.trace.toList) ∧
    ∀ events events' ledger ledger',
      d.Converses (lift x) start fresh () events record.flow ledger →
      d'.Converses (lift (m.point x)) start' fresh () events' record'.flow ledger' → ∀ k,
      let path := visited start events
      let path' := visited start' events'
      (∀ step ∈ (found events).take k, step.success = true) →
      (∀ z, iterateAt f g z ∈ path.take k → Definite (h z)) →
      (∀ y y', path[k]? = some y → path'[k]? = some y' → y' = m.iterate y) ∧
      ((∀ z, path[k]? = some (iterateAt f g z) → Definite (h z)) → ∀ step step',
        (found events)[k]? = some step → (found events')[k]? = some step' →
        step' = m.step step) := by
  intro d d' record record' start start'
  have hopen : d.opened (lift x) = .ok (.inl start) := hp.opened rfl x
  have hopen' : d'.opened (lift (m.point x)) = .ok (.inl start') :=
    (hp'.opened rfl (m.point x)).trans (by rw [m.iterateAt_point])
  refine ⟨exists_converses hopen, exists_converses hopen', ?_⟩
  intro events events' ledger ledger' hconverses hconverses' k path path' hok hpos
  have hears := hears_of_converses hconverses
  have hears' := hears_of_converses hconverses'
  have hcarries : m.Carries f g (p.work n true) (p'.work n true) :=
    hp.carries hp' (fun _ => hh.hasHessian) fun _ => hh'.hasHessian
  have ho := hp.replies_hessian hh
  have ho' := hp'.replies_hessian hh'
  obtain ⟨hover, hnone⟩ | ⟨hover, hnone⟩ |
      ⟨z, rest, rest', hrest, hrest', hz, hz', hstep, hstep'⟩ :=
    arrives hc hs hsymm hcarries ho ho' k hears hears' hok hpos
  · exact ⟨fun y y' hy _ => (by cases hover.symm.trans hy),
      fun _ step step' hy _ => by cases hnone.symm.trans hy⟩
  · exact ⟨fun y y' _ hy' => (by cases hover.symm.trans hy'),
      fun _ step step' _ hy' => by cases hnone.symm.trans hy'⟩
  · refine ⟨fun y y' hy hy' => ?_, fun hhere step step' hfound hfound' => ?_⟩
    · obtain rfl : iterateAt f g z = y := Option.some.inj (hz.symm.trans hy)
      exact (Option.some.inj (hz'.symm.trans hy')).symm
    · exact step_eq_of_hears hc hs hsymm hcarries ho ho' hrest hrest' (hhere z hz)
        (hstep.symm.trans hfound) (hstep'.symm.trans hfound')

/-- In sheared coordinates the full step to the minimum is the image of the full step. -/
theorem run_covariant_sheared :
    let m : AffineChange ℝ 2 :=
      ⟨!![2, 1; 1, 1], !![1, -1; -1, 2], by simp [one_fin_two]; norm_num, ![2, 0], 0⟩
    let q : ConvexQuadratic ℝ 2 := { ConjugateGradient.bowl with linear := ![1, 4] }
    let s : LineSearch (Exact ℝ) := .backtracking .standard
    let d := descent .standard s ⟨9, 1e-6, false⟩ q.objective.problem
    let d' := descent .standard s ⟨9, 1e-6, false⟩ (q.carried m).objective.problem
    let start := q.iterate 0
    ∃ events ledger events' ledger' y,
      d.Converses (lift 0) start fresh () events (d.run (lift 0) fresh ()).flow ledger ∧
      d'.Converses (lift (m.point 0)) (m.iterate start) fresh () events'
        (d'.run (lift (m.point 0)) fresh ()).flow ledger' ∧
      (Phase.ready start).accepted events = [y] ∧ y.point = lift ![1, 4] ∧
      (Phase.ready (m.iterate start)).accepted events' = [m.iterate y] := by
  intro m q s d d' start
  let config : Config (Exact ℝ) := ⟨9, 1e-6, false⟩
  have hoffset : q.value m.center = -m.offset := by
    simp [ConvexQuadratic.value, q, m, ConjugateGradient.bowl]
  have hs : s.TakesFullSteps := LineSearch.takesFullSteps_standard
  have htolerance : 0 < config.tolerance := number_lt.mpr (by norm_num)
  have hfar : ∀ w : Fin 2 → ℝ, 1 ≤ w ⬝ᵥ w →
      ¬ withinTolerance (norm (lift w)) config.tolerance = true := by
    intro w hw
    have hlarge : (1 : ℝ) ≤ √(w ⬝ᵥ w) := Real.one_le_sqrt.mpr hw
    have hsmall : Scalar.larger config.tolerance leastTolerance = number (max 1e-6 1e-12) :=
      larger_number
    rw [norm_lift, withinTolerance, decide_eq_true_iff, hsmall, number_le, not_le]
    exact hlarge.trans_lt' (by norm_num)
  have hposed : ∀ q : ConvexQuadratic ℝ 2, q.objective.Posed q.objective.problem := fun q =>
    ⟨rfl, .inr rfl, .inr rfl, rfl, by rintro _ ⟨⟩; rfl⟩
  have hgradient : q.gradient 0 = ![-1, -4] := by
    simp [ConvexQuadratic.gradient, q]
  have hgradient' : (q.carried m).gradient (m.point 0) = ![-6, -5] := by
    rw [q.gradient_carried, m.gradient_point, hgradient]
    norm_num [AffineChange.pull, m]
  obtain ⟨events, ledger, hconverses, hok, y, hy, hpoint⟩ :=
    exists_path (hposed q) check_standard hs two_pos (by decide : 0 < config.maxIters) htolerance
      (hfar (q.gradient 0) (by norm_num [hgradient]))
  obtain ⟨events', ledger', hconverses', -, y', hy', -⟩ :=
    exists_path (hposed (q.carried m)) check_standard hs two_pos (by decide : 0 < config.maxIters)
      htolerance (hfar ((q.carried m).gradient (m.point 0)) (by norm_num [hgradient']))
  have hstart : (q.carried m).iterate (m.point 0) = m.iterate start := by
    change iterateAt _ _ _ = m.iterate (iterateAt q.value q.gradient 0)
    rw [q.value_carried m hoffset, q.gradient_carried, m.iterateAt_point]
  rw [hstart] at hconverses' hy'
  refine ⟨events, ledger, events', ledger', y, hconverses, hconverses', hy, ?_, ?_⟩
  · rw [hpoint]
    exact congrArg lift (by simp [ConvexQuadratic.minimizer, q, ConjugateGradient.bowl])
  · obtain ⟨-, -, hcovariant⟩ := run_covariant .standard check_standard s hs.check config m q.given
      (h := fun _ => q.matrix) ⟨rfl, fun _ => rfl⟩ (fun _ => q.symm) (q.given_carried m hoffset)
      ⟨rfl, fun _ => rfl⟩ 0
    have hsecond : (visited start events)[1]? = some y := congrArg (·[0]?) hy
    have hsecond' : (visited (m.iterate start) events')[1]? = some y' := congrArg (·[0]?) hy'
    rw [hy', (hcovariant events events' ledger ledger' hconverses hconverses' 1 hok
      fun _ _ => q.pos).1 y y' hsecond hsecond']

/-- A direction along which a search failed gives way to the opposite of the gradient, which is
another direction in other coordinates. Both runs met one Hessian, a positive one, and took one
step. -/
theorem fallback_sees_coordinates :
    let f : (Fin 1 → ℚ) → ℚ := fun x => x 0 ^ 3 / 3 - x 0
    let g : (Fin 1 → ℚ) → Fin 1 → ℚ := fun x => ![x 0 ^ 2 - 1]
    let h : (Fin 1 → ℚ) → SquareMatrix ℚ 1 := fun x => !![2 * x 0]
    let m : AffineChange ℚ 1 := ⟨!![1 / 2], !![2], by decide +kernel, 0, 0⟩
    let s : LineSearch (Exact ℚ) := .backtracking { Backtracking.standard with maxIter := 1 }
    let d := descent .standard s ⟨1, 1e-6, false⟩ (.ofFunctions f g h)
    let d' := descent .standard s ⟨1, 1e-6, false⟩
      (.ofFunctions (m.value f) (m.gradient g) (m.hessian h))
    let record := d.run (lift ![1 / 8]) fresh ()
    let record' := d'.run (lift (m.point ![1 / 8])) fresh ()
    Definite (h ![1 / 8]) ∧ s.check = .ok () ∧ record.ledger.evaluations.hessians = 1 ∧
      record'.ledger.evaluations.hessians = 1 ∧
      record.flow.trace.toList.map Iterate.point = [lift ![71 / 64]] ∧
      record'.flow.trace.toList.map Iterate.point = [lift ![95 / 128]] ∧
      lift ![95 / 128] ≠ m.image (lift ![71 / 64]) := by
  intro f g h m s d d' record record'
  refine ⟨fun v hv => ?_, by decide +kernel⟩
  have hne : v 0 ≠ 0 := by
    intro hzero
    exact hv (funext fun i => (congrArg v (Subsingleton.elim i 0)).trans hzero)
  have hform : v ⬝ᵥ h ![1 / 8] *ᵥ v = 1 / 4 * v 0 ^ 2 := by
    norm_num [h, dotProduct, mulVec]
    ring
  rw [hform]
  positivity

end Newton

end Downhill
