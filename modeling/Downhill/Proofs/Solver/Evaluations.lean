import Downhill.Proofs.Descent.Account
import Downhill.Proofs.Problem.Cost
import Downhill.Proofs.Solver.Equipped

/-! The evaluations of a run, added up. Every question has its price, and what was evaluated is the
price of all questions; and with the strategies of the library it is known who asked them. -/
namespace Downhill
variable {α V M : Type}

namespace Ledger
variable {K : Request V → Prop} {rs : List (Request V)}

/-- The questions after `rs` have `K`. -/
def Asking (K : Request V → Prop) (rs : List (Request V)) (l : Ledger α V) : Prop :=
  ∃ asked, l.requests.toList = rs ++ asked ∧ ∀ r ∈ asked, K r

theorem uncounted_asking : Uncounted (Asking (α := α) K rs) :=
  ⟨fun _ => .inl, fun _ => .inl, fun _ => .inl⟩

theorem maintains_request {r : Request V} (hr : K r) :
    Maintains (Asking (α := α) K rs) (Eval.request r) := by
  rintro l ⟨asked, hrequests, hasked⟩
  refine .inl ⟨asked ++ [r], ?_, List.forall_mem_append.mpr ⟨hasked, ?_⟩⟩
  · rw [← List.append_assoc, ← hrequests]
    exact Array.toList_push
  · exact List.forall_mem_singleton.mpr hr

theorem maintains_remark (r : Remark α) : Maintains (Asking (V := V) K rs) (Eval.remark r) :=
  fun _ => .inl

end Ledger

theorem Evaluations.eq_of_counts {e : Evaluations} {a b c : ℕ}
    (h : (e.values, e.gradients, e.hessians) = (a, b, c)) : e = ⟨a, b, c⟩ := by
  cases h
  rfl

open Ledger

section Runs
variable [Scalar α] {n : ℕ} {p : Problem α (Vector α n) (Matrix α n)} {config : Config α}
  {s : LineSearch α} {x : Vector α n}

/-- The searches of the library ask for values and gradients. -/
theorem LineSearch.asking (needHessian : Bool) (rs : List (Request (Vector α n))) :
    s.machine.Preserves (p.work n needHessian) (fun _ => False)
      (Asking (fun r => r.isHessian = false) rs) :=
  s.preserves (fun y => uncounted_asking.work_value p needHessian y (maintains_request rfl))
    fun y => uncounted_asking.work_gradient p needHessian y (maintains_request rfl)

/-- The strategies of the library ask for Hessians. -/
theorem Plan.asking (plan : Plan α) (needHessian : Bool) (rs : List (Request (Vector α n))) :
    plan.strategist.strategy.Preserves (p.work n needHessian) (fun _ => False)
      (Asking (fun r => r.isHessian = true) rs) :=
  plan.preserves (fun r _ => maintains_remark r) fun y =>
    uncounted_asking.work_hessian p needHessian y (maintains_request rfl)

/-- A Newton direction asks for the Hessian at its iterate, and for nothing else. -/
theorem Newton.requests_compute (c : Newton α) (y : Iterate α (Vector α n))
    (rs : Array (Request (Vector α n))) :
    Ensures (Act.Accounts fun l => l.requests = rs)
      (c.strategy.compute (p.work n true) y)
      fun _ => Act.Accounts fun l => l.requests = rs.push (.hessian y.point) := by
  have hasked : Maintains (fun l => l.requests = rs.push (.hessian y.point))
      ((p.differentiable n true).hessian y.point) :=
    (Problem.uncounted_requests _).differentiable_hessian p true y.point
  refine .bind (R := fun _ t => t.2.requests = rs.push (.hessian y.point)) (fun t ht => ?_)
    (fun m => ?_) fun _ _ h => h
  · exact maintains_iff.mp hasked { t.2 with requests := t.2.requests.push (.hessian y.point) }
      (congrArg (·.push (Request.hessian y.point)) ht)
  · -- What follows the question does not ask the problem any more: it may be any other one.
    have hrest := c.preserves (M := Matrix α n)
      (o := { p.work n true with hessian := fun _ => pure m })
      (P := fun l : Ledger α (Vector α n) => l.requests = rs.push (.hessian y.point))
      (E := fun _ => False) (fun _ _ _ => .inl) fun _ => .pure m
    exact maintains_iff.mp (hrest.compute y)

/-- Searches ask for values and gradients, and strategies for Hessians; a Newton direction asks for
exactly one. -/
theorem Plan.exists_asked (plan : Plan α) (q : Query α (Vector α n))
    (f : Flow _ _ α (Vector α n)) (l : Ledger α (Vector α n)) :
    let d := plan.descent p s.searcher config
    ∃ asked, ((d.serve (d.work n) q).perform f l).2.2.requests.toList =
      l.requests.toList ++ asked ∧ (∀ r ∈ asked, r.isHessian = !q.isSearch) ∧
      ∀ c, plan = .newton c → asked.countP Request.isHessian = if q.isCompute then 1 else 0 := by
  intro d
  have hserve : Maintains (Act.Accounts (Asking (fun r => r.isHessian = !q.isSearch)
      l.requests.toList)) (d.serve (d.work n) q) := by
    have hstrategy := plan.asking (p := p) d.strategy.needsHessian l.requests.toList
    cases q with
    | compute y => exact Act.preserves_within (hstrategy.compute y)
    | reset => exact Act.preserves_within hstrategy.reset
    | initialStep g v => exact Act.preserves_within (hstrategy.initialStep g v)
    | search ray first => exact Act.preserves_within (LineSearch.asking _ _ ray first)
    | update u y g a v => exact Act.preserves_within (hstrategy.update u y g a v)
  obtain ⟨asked, hrequests, hkind⟩ := maintains_iff.mp hserve (f, l) ⟨[], by simp, by simp⟩
  refine ⟨asked, hrequests, hkind, ?_⟩
  rintro c rfl
  cases q with
  | compute y =>
    have hcompute := c.requests_compute (p := p) y l.requests (f.strategy, l) rfl
    have hasked : l.requests.toList ++ asked = l.requests.toList ++ [.hessian y.point] :=
      hrequests.symm.trans ((congrArg Array.toList hcompute).trans Array.toList_push)
    rw [List.append_cancel_left hasked]
    rfl
  | search ray first =>
    exact List.countP_eq_zero.mpr fun r hr => by simp [hkind r hr, Query.isSearch]
  | _ =>
    have hasked : l.requests.toList ++ [] = l.requests.toList ++ asked :=
      (List.append_nil _).trans hrequests
    rw [← List.append_cancel_left hasked]
    rfl

/-- The price of all questions of a run with an outcome. -/
theorem Descent.evaluations_of_outcome {σ : Type} {d : Descent σ Unit α (Vector α n) (Matrix α n)}
    {E : Fault α → Prop} {state : σ} {outcome : Outcome α (Vector α n)}
    (hsearch : d.search = s.machine) (hasks : d.strategy.Asks E)
    (hE : ∀ f, E f → f.isNumerical = false)
    (hfaults : (d.problem.counted n).offers d.strategy.needsHessian = true ∨ d.problem.Faults E)
    (hout : (d.run x state ()).result = .ok outcome) :
    let requests := (d.run x state ()).ledger.requests.toList
    (outcome.evaluations.values, outcome.evaluations.gradients, outcome.evaluations.hessians) =
      requests.countP Request.isValue • (1, 0, 0) +
      requests.countP Request.isGradient • d.problem.gradientPrice +
      requests.countP Request.isHessian • d.problem.hessianPrice d.strategy.needsHessian := by
  intro requests
  have hvalue := Problem.balanced_value (E := E) d.problem d.strategy.needsHessian
  have hgradient := fun y => Problem.balanced_gradient y hfaults
  have hhessian := fun y => Problem.balanced_hessian y hfaults
  have hremark : ∀ r : Remark α,
      Maintains (d.problem.Balanced d.strategy.needsHessian) (Eval.remark r) := fun _ _ => .inl
  obtain ⟨hbalanced, hevaluations⟩ := account_of_outcome hE hvalue hgradient hremark rfl
    (hasks _ _ hvalue hgradient hhessian hremark)
    (hsearch ▸ s.preserves hvalue hgradient) hout
  rw [hevaluations, ← Problem.sum_price]
  exact hbalanced

/-- What the questions of a run are, with a strategy and a search of the library. -/
theorem Plan.itemized {plan : Plan α}
    {state : (plan.strategist : Strategist α (Vector α n) (Matrix α n)).State}
    {outcome : Outcome α (Vector α n)} (hx : Space.finite x = true)
    (hout : ((plan.descent p s.searcher config).run x state ()).result = .ok outcome) :
    let d := plan.descent p s.searcher config
    let record := d.run x state ()
    ∃ items, record.ledger.requests.toList =
        .value x :: .gradient x :: items.flatMap Prod.snd ∧
      (∀ i ∈ items, ∀ r ∈ i.2, r.isHessian = !i.1.query.isSearch) ∧
      (∀ c, plan = .newton c → outcome.status = .converged ∨ outcome.status = .iterationCap →
        (items.flatMap Prod.snd).countP Request.isHessian = outcome.iterations) ∧
      ((∀ start, d.opened x ≠ .ok (.inl start)) → items = []) ∧
      ∀ start, d.opened x = .ok (.inl start) → ∃ prepared ledger,
        d.strategy.prepare (d.work n) start state = .ok prepared ∧
        d.Itemized (d.work n)
          (.start prepared () #[.prepare], (Descent.openAt (d.work n) x).start.2) items
          (record.flow, ledger) := by
  intro d record
  obtain ⟨stop, hopened, hrun⟩ |
    ⟨start, events, stop, flow, ledger, hopened, hrun, hconverses, haccepted, hending⟩ :=
    Descent.course_of_outcome hout
  · have hrequests := Descent.requests_openAt hx hopened
    refine ⟨[], ?_, fun i hi => absurd hi List.not_mem_nil, fun c _ _ => ?_, fun _ => rfl,
      fun start hstart => ?_⟩
    · rw [show record.ledger.requests = _ from congrArg (fun r => r.ledger.requests) hrun]
      exact congrArg Array.toList hrequests
    · rw [hrun] at hout
      cases hout
      exact (Descent.iterations_of_opened hopened).symm
    · cases hopened.symm.trans hstart
  · obtain ⟨hobeys, prepared, hprepare, htranscript⟩ := hconverses
    obtain ⟨items, hitems, hevents, hasked⟩ := htranscript.itemized
      (R := fun q asked => (∀ r ∈ asked, r.isHessian = !q.isSearch) ∧ ∀ c, plan = .newton c →
        asked.countP Request.isHessian = if q.isCompute then 1 else 0)
      fun q f l => plan.exists_asked q f l
    have hrequests := hitems.requests_eq
    refine ⟨items, ?_, fun i hi => (hasked i hi).1, fun c hc hstatus => ?_,
      fun hnever => absurd hopened (hnever start), fun start' hstart => ?_⟩
    · rw [show record.ledger.requests = ledger.requests from
        congrArg (fun r => r.ledger.requests) hrun, hrequests, Descent.requests_openAt hx hopened]
      rfl
    · rw [hrun] at hout
      cases hout
      rw [Descent.countP_flatMap fun i hi => (hasked i hi).2 c hc, hevents]
      exact hending.countP_compute hobeys haccepted hstatus
    · obtain rfl := Sum.inl.inj (Except.ok.inj (hopened.symm.trans hstart))
      refine ⟨prepared, ledger, hprepare, ?_⟩
      rw [show record.flow = flow from (congrArg Record.flow hrun).trans (Descent.flow_close ..)]
      exact hitems

end Runs

end Downhill
