import Downhill.Descent.Script
import Downhill.Proofs.Descent.Course
import Downhill.Proofs.LineSearch.Family
import Downhill.Proofs.Linear.SelfEqual

/-! The protocol of a run. An iteration may fall back twice, on steepest descent for the direction
and on steepest descent for a search that failed; the two never come together, so the resets and
searches of an iteration are few, and a fault ends the conversation. -/
namespace Downhill
variable {σ ρ α V M : Type} [Scalar α] [Space α V]

namespace Phase
variable {p : Phase α V} {q : Query α V}

/-- The gradient at hand is finite, and a repeated search goes along its opposite. -/
def Sound : Phase α V → Prop
  | primed x direction again _ | searched x direction again _ =>
    Space.finite x.gradient = true ∧ (again = true → direction = -x.gradient)
  | p => Space.finite p.iterate.gradient = true

omit [Scalar α] in
theorem Sound.finite (h : p.Sound) : Space.finite p.iterate.gradient = true := by
  cases p <;> first | exact h | exact h.1

theorem Sound.answered (h : p.Sound) (hq : Due p q) (r : Except (Fault α) q.Answer) :
    (p.answered ⟨q, r⟩).Sound := by
  cases r with
  | error f => exact h.finite
  | ok answer =>
    cases hq with
    | compute x => exact h
    | descends hfin hneg => exact ⟨h, nofun⟩
    | replaced hfin hneg => exact h
    | steepest x again => exact ⟨h, fun _ => rfl⟩
    | search x direction again asked => exact h
    | repeated hfail hfirst => exact h.1
    | update hok hfin =>
      simp only [Descent.finiteStep, Bool.and_eq_true] at hfin
      exact hfin.2

theorem Sound.along {events : List (Event α V)} (h : p.Sound) (hobeys : p.Obeys events) :
    (p.along events).Sound := by
  induction events generalizing p with
  | nil => exact h
  | cons e events ih => exact ih (h.answered (due_of_eq_some hobeys.1) e.answer) hobeys.2

/-- How many calls of a kind an iteration can still make. -/
structure Budget (counts : Query α V → Bool) (left : Phase α V → ℕ) : Prop where
  pays : ∀ {p : Phase α V} {q : Query α V}, p.Sound → Due p q → q.isCompute = false →
    ∀ r, left (p.answered ⟨q, r⟩) + (if counts q then 1 else 0) ≤ left p

/-- Within an iteration no more calls are made than were left. -/
theorem Budget.countP_le {counts : Query α V → Bool} {left : Phase α V → ℕ}
    (hb : Budget counts left) {events : List (Event α V)} (h : p.Sound) (hobeys : p.Obeys events)
    (hsame : ∀ e ∈ events, e.query.isCompute = false) :
    events.countP (fun e => counts e.query) ≤ left p := by
  induction events generalizing p with
  | nil => exact Nat.zero_le _
  | cons e events ih =>
    rw [List.forall_mem_cons] at hsame
    have hdue := due_of_eq_some hobeys.1
    have hpays := hb.pays h hdue hsame.1 e.answer
    have hrest := ih (h.answered hdue e.answer) hobeys.2 hsame.2
    rw [List.countP_cons]
    exact (Nat.add_le_add_right hrest _).trans hpays

/-- The search along this direction is repeated if it fails. -/
def repetitions (x : Iterate α V) (direction : V) (again : Bool) : ℕ :=
  if again || direction == -x.gradient then 0 else 1

def resetsLeft : Phase α V → ℕ
  | proposed _ _ => 1
  | primed x direction again _ | searched x direction again _ => repetitions x direction again
  | _ => 0

def searchesLeft : Phase α V → ℕ
  | proposed _ _ => 2
  | aimed _ _ => 1
  | primed x direction again _ => repetitions x direction again + 1
  | searched x direction again _ => repetitions x direction again
  | _ => 0

def steepestLeft : Phase α V → ℕ
  | proposed _ _ | aimed _ _ | primed _ _ _ _ => 1
  | searched x direction again _ => repetitions x direction again
  | _ => 0

omit [Scalar α] in
theorem repetitions_le (x : Iterate α V) (direction : V) (again : Bool) :
    repetitions x direction again ≤ 1 := by
  unfold repetitions
  split_ifs <;> decide

theorem repetitions_steepest [SelfEqual α V] {x : Iterate α V}
    (h : Space.finite x.gradient = true) (again : Bool) :
    repetitions x (-x.gradient) again = 0 := by
  simp [repetitions, SelfEqual.neg_beq_neg x.gradient h]

omit [Scalar α] in
theorem repetitions_of_first {x : Iterate α V} {direction : V} {again : Bool}
    (h : (again || direction == -x.gradient) = false) : repetitions x direction again = 1 := by
  simp only [repetitions, h, Bool.false_eq_true, if_false]

theorem budget_resets [SelfEqual α V] :
    Budget (α := α) (V := V) Query.isReset resetsLeft := by
  refine ⟨fun h hdue hsame r => ?_⟩
  cases hdue with
  | compute x => cases hsame
  | descends hfin hneg =>
    cases r with
    | error f => exact Nat.zero_le 1
    | ok asked => exact repetitions_le ..
  | replaced hfin hneg => cases r <;> exact Nat.le_refl 1
  | steepest x again =>
    cases r with
    | error f => exact Nat.le_refl 0
    | ok asked => exact (repetitions_steepest h again).le
  | search x direction again asked =>
    cases r with
    | error f => exact Nat.zero_le _
    | ok step => exact Nat.le_refl _
  | repeated hfail hfirst => cases r <;> exact (repetitions_of_first hfirst).ge
  | update hok hfin => cases r <;> exact Nat.zero_le _

theorem budget_searches [SelfEqual α V] :
    Budget (α := α) (V := V) Query.isSearch searchesLeft := by
  refine ⟨fun h hdue hsame r => ?_⟩
  cases hdue with
  | compute x => cases hsame
  | descends hfin hneg =>
    cases r with
    | error f => exact Nat.zero_le 2
    | ok asked => exact Nat.succ_le_succ (repetitions_le ..)
  | replaced hfin hneg =>
    cases r with
    | error f => exact Nat.zero_le 2
    | ok _ => exact Nat.le_succ 1
  | steepest x again =>
    cases r with
    | error f => exact Nat.zero_le 1
    | ok asked => exact Nat.succ_le_succ (repetitions_steepest h again).le
  | search x direction again asked =>
    cases r with
    | error f => exact Nat.succ_le_succ (Nat.zero_le _)
    | ok step => exact Nat.le_refl _
  | repeated hfail hfirst =>
    cases r with
    | error f => exact Nat.zero_le _
    | ok _ => exact (repetitions_of_first hfirst).ge
  | update hok hfin => cases r <;> exact Nat.zero_le _

theorem budget_steepest : Budget (α := α) (V := V) Query.isSteepest steepestLeft := by
  refine ⟨fun h hdue hsame r => ?_⟩
  cases hdue with
  | compute x => cases hsame
  | descends hfin hneg =>
    cases r with
    | error f => exact Nat.zero_le 1
    | ok asked => exact Nat.le_refl 1
  | replaced hfin hneg =>
    cases r with
    | error f => exact Nat.zero_le 1
    | ok _ => exact Nat.le_refl 1
  | steepest x again =>
    cases r with
    | error f => exact Nat.zero_le 1
    | ok asked => exact Nat.le_refl 1
  | search x direction again asked =>
    have hcost : repetitions x direction again +
        (if direction == -x.gradient then 1 else 0) ≤ 1 := by
      unfold repetitions
      split_ifs <;> simp_all
    cases r with
    | error f => exact (Nat.add_le_add_right (Nat.zero_le _) _).trans hcost
    | ok step => exact hcost
  | repeated hfail hfirst =>
    cases r with
    | error f => exact Nat.zero_le _
    | ok _ => exact (repetitions_of_first hfirst).ge
  | update hok hfin => cases r <;> exact Nat.zero_le _

/-- What an iteration can do after its direction was asked for. -/
theorem counts_le [SelfEqual α V] {before rest after : List (Event α V)} {y : Iterate α V}
    {r : Except (Fault α) V} (h : p.Sound)
    (hobeys : p.Obeys (before ++ ⟨.compute y, r⟩ :: (rest ++ after)))
    (hsame : ∀ e ∈ rest, e.query.isCompute = false) :
    rest.countP (fun e => e.query.isReset) ≤ 1 ∧ rest.countP (fun e => e.query.isSearch) ≤ 2 ∧
      rest.countP (fun e => e.query.isSteepest) ≤ 1 := by
  rw [obeys_append] at hobeys
  obtain ⟨hbefore, hcompute, hrest⟩ := hobeys
  have hdue := due_of_eq_some hcompute
  have hready := h.along hbefore
  generalize p.along before = p' at hdue hready hrest
  have hsound := hready.answered hdue r
  rw [obeys_append] at hrest
  cases hdue with
  | compute y =>
    have hresets := budget_resets.countP_le hsound hrest.1 hsame
    have hsearches := budget_searches.countP_le hsound hrest.1 hsame
    have hsteepest := budget_steepest.countP_le hsound hrest.1 hsame
    -- A direction comes with the whole budget of an iteration, a fault with none.
    cases r with
    | error f => exact ⟨hresets.trans (Nat.zero_le 1), hsearches.trans (Nat.zero_le 2),
        hsteepest.trans (Nat.zero_le 1)⟩
    | ok direction => exact ⟨hresets, hsearches, hsteepest⟩

/-- Nothing follows a fault. -/
theorem eq_nil_of_fault {before rest : List (Event α V)} {e : Event α V} {f : Fault α}
    (h : p.Obeys (before ++ e :: rest)) (hfault : e.answer = .error f) : rest = [] := by
  rw [obeys_append] at h
  cases rest with
  | nil => rfl
  | cons next rest =>
    have hdue : ((p.along before).answered e).due = some next.query := h.2.2.1
    rw [answered, hfault] at hdue
    cases hdue

/-- A search that is over was the last call. -/
theorem exists_search {x y : Iterate α V} {direction : V} {again : Bool} {step : Step α V}
    {events : List (Event α V)} (hobeys : (ready y).Obeys events)
    (h : (ready y).along events = searched x direction again step) :
    ∃ before asked, events = before ++ [⟨.search ⟨x, direction⟩ asked, .ok step⟩] := by
  rcases List.eq_nil_or_concat events with rfl | ⟨before, ⟨q, r⟩, rfl⟩
  · cases h
  rw [List.concat_eq_append, obeys_append] at hobeys
  rw [List.concat_eq_append, along_append] at h
  have hdue := due_of_eq_some hobeys.2.1
  generalize (ready y).along before = p at hdue h
  have hlast : p.answered ⟨q, r⟩ = searched x direction again step := h
  cases r with
  | error f => cases hlast
  | ok answer =>
    cases hdue with
    | search z v a asked =>
      cases hlast
      exact ⟨before, asked, List.concat_eq_append⟩
    | _ => cases hlast

/-- Only a search that failed, and is not repeated, ends a run as a failed search. -/
theorem exists_searched_of_closing {message : RunMessage α}
    (h : p.closing = some (.searchFailed, message)) :
    ∃ x direction again step, p = searched x direction again step ∧ step.success = false ∧
      (again || direction == -x.gradient) = true ∧ message = .search step.message := by
  cases p with
  | searched x direction again step =>
    refine ⟨x, direction, again, step, rfl, ?_⟩
    simp only [closing] at h
    split_ifs at h with hok hfin hlast <;> cases h
    exact ⟨Bool.eq_false_iff.mpr hok, hlast, rfl⟩
  | proposed x direction =>
    simp only [closing] at h
    split_ifs at h
    cases h
  | broken x f => cases f <;> cases h
  | ready | aimed | primed => cases h

end Phase

namespace Descent
variable [Curved α V M] {d : Descent σ ρ α V M} {x : V} {start : Iterate α V}

/-- The protocol of a run from an open start, with any problem, strategy, search and config. One
call begins it, and the others are those that are due, phase by phase, each answered in the state in
which the ones before it left strategy and search: a direction; after a reset, its replacement by
the opposite of the gradient, where it is finite and does not descend; the first step and the
search; after a reset, one more of each along the opposite of the gradient, where the search failed
along another direction; and the report of a step that is accepted. A direction that is not finite
ends the run. So in an iteration at most one reset and two searches are made, one of them along the
opposite of the gradient; nothing follows a fault; and a run that returns comes to a phase in which
it may stop, after a failed search one along the opposite of the gradient at the outcome. -/
theorem run_protocol [SelfEqual α V] (state : σ) (search : ρ)
    (hstart : d.opened x = .ok (.inl start)) :
    let record := d.run x state search
    (∃ f, d.strategy.prepare (d.work (Space.size x)) start state = .error f ∧
      record.result = .error f ∧ record.flow.calls.toList = [.prepare]) ∨
    ∃ events ledger, d.Converses x start state search events record.flow ledger ∧
      record.flow.calls.toList = .prepare :: events.map Event.call ∧
      (∀ e ∈ events, e.call ≠ .prepare) ∧
      (∀ before rest after y r, events = before ++ ⟨.compute y, r⟩ :: (rest ++ after) →
        (∀ e ∈ rest, e.query.isCompute = false) →
        rest.countP (fun e => e.query.isReset) ≤ 1 ∧ rest.countP (fun e => e.query.isSearch) ≤ 2 ∧
          rest.countP (fun e => e.query.isSteepest) ≤ 1) ∧
      (∀ before e rest f, events = before ++ e :: rest → e.answer = .error f → rest = []) ∧
      ∀ outcome, record.result = .ok outcome →
        let last := (Phase.ready start).along events
        outcome.point = last.iterate.point ∧
        ((outcome.status = .converged ∨ outcome.status = .iterationCap) ∧
            last = .ready last.iterate ∨
          last.closing = some (outcome.status, outcome.message)) ∧
        (outcome.status = .searchFailed → ∃ before ray asked step,
          events = before ++ [⟨.search ray asked, .ok step⟩] ∧ step.success = false ∧
          ray.start = last.iterate ∧ (ray.direction == -ray.start.gradient) = true) := by
  intro record
  obtain ⟨f, hrefused, hresult, hflow⟩ | ⟨events, ledger, hconverses, hend⟩ :=
    run_converses state search hstart
  · refine .inl ⟨f, hrefused, hresult, ?_⟩
    rw [hflow]
    rfl
  obtain ⟨hobeys, prepared, hprepare, htranscript⟩ := id hconverses
  have hsound : (Phase.ready start).Sound := (opened_finite hstart).2.2.2
  refine .inr ⟨events, ledger, hconverses, htranscript.calls_eq, fun e _ => e.query.call_ne_prepare,
    ?_, ?_, fun outcome hout => ?_⟩
  · rintro before rest after y r rfl hsame
    exact Phase.counts_le hsound hobeys hsame
  · rintro before e rest f rfl hfault
    exact Phase.eq_nil_of_fault hobeys hfault
  obtain ⟨stop, -, hending, rfl⟩ := hend outcome hout
  intro last
  refine ⟨congrArg Iterate.point hending.final_eq, hending.stopped, fun hfailed => ?_⟩
  have hclosing : last.closing = some (.searchFailed, stop.message) := by
    have hstatus : stop.status = .searchFailed := hfailed
    have hstopped := hending.stopped
    rw [hstatus] at hstopped
    exact hstopped.resolve_left fun h => by simp at h
  obtain ⟨y, direction, again, step, hlast, hfail, hover, -⟩ :=
    Phase.exists_searched_of_closing hclosing
  obtain ⟨before, asked, hevents⟩ := Phase.exists_search hobeys hlast
  have hsearched : (Phase.searched y direction again step).Sound := hlast ▸ hsound.along hobeys
  refine ⟨before, _, asked, step, hevents, hfail, ?_, ?_⟩
  · rw [hlast]
    rfl
  · -- The phase calls a search the last one if it went that way or was repeated; both agree.
    cases again with
    | false => exact hover
    | true => rw [hsearched.2 rfl]; exact SelfEqual.neg_beq_neg _ hsearched.1

/-- The first search fails and is repeated along the opposite of the gradient; the second direction
does not descend and is replaced, and the search that fails then is the last call. -/
theorem run_protocol_failed :
    let d : Descent Script.Tally ℕ (Exact ℚ) (Vector (Exact ℚ) 2) (Matrix (Exact ℚ) 2) :=
      ⟨LineSearch.bowl, Script.Directions.strategy
          ⟨"fixed", false, [.along #v[1, 0], .along #v[-1, 0]], [none]⟩,
        Script.search [⟨0, ⟨#v[0, 0], 0, #v[-3, -3]⟩, false, ""⟩,
          ⟨1, ⟨#v[1, 0], -2, #v[-1, -2]⟩, true, ""⟩, ⟨0, ⟨#v[1, 0], -2, #v[-1, -2]⟩, false, ""⟩],
        .standard⟩
    let record := d.run #v[0, 0] {} 0
    record.flow.calls.toList = [.prepare, .compute, .initialStep #v[-3, -3] #v[1, 0],
      .search #v[1, 0], .reset, .initialStep #v[-3, -3] #v[3, 3], .search #v[3, 3],
      .update #v[1, 0] #v[2, 1] #v[-1, -2] 1 #v[3, 3], .compute, .reset,
      .initialStep #v[-1, -2] #v[1, 2], .search #v[1, 2]] ∧
    ∃ outcome events before ray asked step, record.result = .ok outcome ∧
      outcome.status = .searchFailed ∧
      record.flow.calls.toList = .prepare :: events.map Event.call ∧
      events = before ++ [⟨.search ray asked, .ok step⟩] ∧ step.success = false ∧
      (ray.direction == -ray.start.gradient) = true := by
  intro d record
  have hstart : d.opened #v[0, 0] = .ok (.inl ⟨#v[0, 0], 0, #v[-3, -3]⟩) := by decide +kernel
  have hout : record.result = .ok ⟨#v[1, 0], -2, Space.norm (V := Vector (Exact ℚ) 2) #v[-1, -2],
      1, .searchFailed, .search (.text ""), ⟨1, 1, 0⟩, []⟩ := by decide +kernel
  refine ⟨by decide +kernel, ?_⟩
  obtain ⟨f, -, hfault, -⟩ | ⟨events, ledger, -, hcalls, -, -, -, hend⟩ :=
    run_protocol (d := d) {} 0 hstart
  · cases hfault.symm.trans hout
  obtain ⟨-, -, hfailed⟩ := hend _ hout
  obtain ⟨before, ray, asked, step, hevents, hfail, -, hsteepest⟩ := hfailed rfl
  exact ⟨_, events, before, ray, asked, step, hout, rfl, hcalls, hevents, hfail, hsteepest⟩

/-- A direction that is not finite, and so does not descend, is not replaced: no reset follows. -/
theorem run_undefined_direction :
    let d : Descent Script.Tally ℕ (Exact ℚ) (Vector (Exact ℚ) 2) (Matrix (Exact ℚ) 2) :=
      ⟨LineSearch.bowl, Script.Directions.strategy
          ⟨"undefined", false, [.along #v[.undefined, 0]], [none]⟩,
        Script.search [⟨1, ⟨#v[1, 0], -2, #v[-1, -2]⟩, true, ""⟩], .standard⟩
    let record := d.run #v[0, 0] {} 0
    let direction : Vector (Exact ℚ) 2 := #v[.undefined, 0]
    d.opened #v[0, 0] = .ok (.inl ⟨#v[0, 0], 0, #v[-3, -3]⟩) ∧
      ¬ Space.inner #v[-3, -3] direction < 0 ∧ record.flow.strategy.computed = 1 ∧
      record.flow.calls = #[.prepare, .compute] ∧ record.flow.strategy.resets = 0 := by
  decide +kernel

end Descent

end Downhill
