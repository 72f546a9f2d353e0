import Downhill.Proofs.Descent.Answers
import Downhill.Proofs.Descent.Conduct
import Downhill.Proofs.Descent.Verdicts

/-! Who asks for what in a run. Its questions are those of its opening and, event by event, those
that were asked to answer a call; and what all its parts do to the account shows in the outcome,
since a fault that they may break off with ends the run. -/
namespace Downhill
variable {σ ρ α V M β ε τ : Type}

theorem Maintains.preserves {E : ε → Prop} {P : τ → Prop} {c : ExceptT ε (StateM τ) β}
    (h : Maintains P c) : Preserves E P c :=
  .mono (maintains_iff.mp h) (fun _ ht => ht) fun _ _ => .inl

/-- The strategy touches its account only by asking the problem and by remarks, and a fault with
`E` in which a question ends also ends the call. -/
def Strategy.Asks (s : Strategy σ α V M) (E : Fault α → Prop) : Prop :=
  ∀ (o : Oracle α V M) (P : Ledger α V → Prop), (∀ x, Downhill.Preserves E P (o.value x)) →
    (∀ x, Downhill.Preserves E P (o.gradient x)) → (∀ x, Downhill.Preserves E P (o.hessian x)) →
    (∀ r : Remark α, Maintains P (Eval.remark r)) → s.Preserves o E P

theorem Plan.asks [Scalar α] [Space α V] [Curved α V M] (plan : Plan α) (E : Fault α → Prop) :
    (plan.strategist : Strategist α V M).strategy.Asks E := fun _ _ _ _ hhessian hremark =>
  plan.preserves (fun r _ => (hremark r).preserves) hhessian

namespace Descent
variable {d : Descent σ ρ α V M} {o : Oracle α V M} {start t : Flow σ ρ α V × Ledger α V}
  {events : List (Event α V)}

section Outcome
variable [Scalar α] [Space α V] [Curved α V M] {x : V} {state : σ} {search : ρ}
  {outcome : Outcome α V}

/-- A run with an outcome stopped at its opening, or it conversed until it came to an end. -/
theorem course_of_outcome (hout : (d.run x state search).result = .ok outcome) :
    (∃ stop, d.opened x = .ok (.inr stop) ∧
      d.run x state search = d.close x (.ok stop) (.start state search #[])
        (openAt (d.work (Space.size x)) x).start.2) ∨
    ∃ start events stop flow ledger, d.opened x = .ok (.inl start) ∧
      d.run x state search = d.close x (.ok stop) flow ledger ∧
      d.Converses x start state search events flow ledger ∧
      (Phase.ready start).accepted events = flow.trace.toList ∧
      d.Ending start flow.trace.toList ((Phase.ready start).along events) stop := by
  rcases hopened : d.opened x with f | start | stop
  · cases (run_of_fault state search hopened).symm.trans hout
  · obtain ⟨f, l, -, hrun⟩ | ⟨events, r, flow, ledger, hrun, hconverses, hend⟩ :=
      run_course state search hopened
    · rw [hrun] at hout
      cases hout
    cases r with
    | error f =>
      rw [hrun] at hout
      cases hout
    | ok stop =>
      exact .inr ⟨start, events, stop, flow, ledger, rfl, hrun, hconverses, hend stop rfl⟩
  · obtain ⟨l, hopen⟩ := exists_ledger hopened
    refine .inl ⟨stop, rfl, ?_⟩
    simp only [run, hopen]

variable {E : Fault α → Prop} {P : Ledger α V → Prop}
  (hE : ∀ f, E f → f.isNumerical = false)
  (hvalue : ∀ y, Preserves E P ((d.work (Space.size x)).value y))
  (hgradient : ∀ y, Preserves E P ((d.work (Space.size x)).gradient y))
  (hremark : ∀ r : Remark α, Maintains P (Eval.remark r)) (hempty : P {})

include hvalue hgradient hempty in
theorem account_of_opened {r : Iterate α V ⊕ Stop α V} (hopened : d.opened x = .ok r) :
    P (openAt (d.work (Space.size x)) x).start.2 := by
  have hopen := preserves_openAt hvalue hgradient x {} hempty
  rw [show ((openAt (d.work (Space.size x)) x).run.run {}).1 = .ok r from hopened] at hopen
  exact hopen.of_ok

include hE hvalue hgradient hremark hempty in
/-- What all parts of a run do to the account, up to faults that are not numerical, has been done
where there is an outcome. -/
theorem account_of_outcome (hstrategy : d.strategy.Preserves (d.work (Space.size x)) E P)
    (hsearch : d.search.Preserves (d.work (Space.size x)) E P)
    (hout : (d.run x state search).result = .ok outcome) :
    P (d.run x state search).ledger ∧
      outcome.evaluations = (d.run x state search).ledger.evaluations := by
  have hclose : ∀ stop flow l, P l → P (d.close x (.ok stop) flow l).ledger := fun stop _ l hl =>
    maintains_iff.mp (hremark (d.farewell stop)) l hl
  obtain ⟨stop, hopened, hrun⟩ |
    ⟨start, events, stop, flow, ledger, hopened, hrun, hconverses, -, hending⟩ :=
    course_of_outcome hout
  · rw [hrun] at hout ⊢
    cases hout
    exact ⟨hclose _ _ _ (account_of_opened hvalue hgradient hempty hopened), rfl⟩
  · obtain ⟨hobeys, prepared, -, htranscript⟩ := hconverses
    have hledger : P ledger := by
      refine (htranscript.preserves hstrategy hsearch hremark
        (account_of_opened hvalue hgradient hempty hopened)).resolve_right ?_
      rintro ⟨e, he, f, hf, hfault⟩
      cases (hE f hfault).symm.trans (hending.isNumerical hobeys he hf)
    rw [hrun] at hout ⊢
    cases hout
    exact ⟨hclose _ _ _ hledger, rfl⟩

end Outcome

/-- The events of a part of a run, each with the questions that were asked to answer it. -/
inductive Itemized (d : Descent σ ρ α V M) (o : Oracle α V M)
    (start : Flow σ ρ α V × Ledger α V) :
    List (Event α V × List (Request V)) → Flow σ ρ α V × Ledger α V → Prop
  | begin : Itemized d o start [] start
  | remark {items : List (Event α V × List (Request V))} {f : Flow σ ρ α V} {l : Ledger α V}
      (h : Itemized d o start items (f, l)) (r : Remark α) :
      Itemized d o start items (f, { l with remarks := l.remarks.push r })
  | accept {items : List (Event α V × List (Request V))} {f : Flow σ ρ α V} {l : Ledger α V}
      (h : Itemized d o start items (f, l)) (y : Iterate α V) :
      Itemized d o start items ({ f with trace := f.trace.push y }, l)
  | call {items : List (Event α V × List (Request V))} {f : Flow σ ρ α V} {l : Ledger α V}
      (h : Itemized d o start items (f, l)) (e : Event α V) {t : Flow σ ρ α V × Ledger α V}
      (ht : (d.serve o e.query).perform { f with calls := f.calls.push e.call } l = (e.answer, t))
      {asked : List (Request V)} (hasked : t.2.requests.toList = l.requests.toList ++ asked) :
      Itemized d o start (items ++ [(e, asked)]) t

variable {items : List (Event α V × List (Request V))}

/-- The questions of a run are those with which it began and those of its events. -/
theorem Itemized.requests_eq (h : d.Itemized o start items t) :
    t.2.requests.toList = start.2.requests.toList ++ items.flatMap Prod.snd := by
  induction h with
  | begin => simp
  | remark h r ih => exact ih
  | accept h y ih => exact ih
  | call h e ht hasked ih =>
    rw [hasked, ih, List.flatMap_append, List.flatMap_singleton, List.append_assoc]

/-- Every event of a transcript comes with its questions, and with what is known of them. -/
theorem Transcript.itemized {R : Query α V → List (Request V) → Prop}
    (hserve : ∀ q f l, ∃ asked, ((d.serve o q).perform f l).2.2.requests.toList =
      l.requests.toList ++ asked ∧ R q asked)
    (h : d.Transcript o start events t) :
    ∃ items, d.Itemized o start items t ∧ items.map Prod.fst = events ∧
      ∀ i ∈ items, R i.1.query i.2 := by
  induction h with
  | begin => exact ⟨[], .begin, rfl, fun i hi => absurd hi List.not_mem_nil⟩
  | remark h r ih =>
    obtain ⟨items, hitems, hR⟩ := ih
    exact ⟨items, hitems.remark r, hR⟩
  | accept h y ih =>
    obtain ⟨items, hitems, hR⟩ := ih
    exact ⟨items, hitems.accept y, hR⟩
  | @call events f l h e t ht ih =>
    obtain ⟨items, hitems, hevents, hR⟩ := ih
    obtain ⟨asked, hasked, he⟩ := hserve e.query { f with calls := f.calls.push e.call } l
    rw [ht] at hasked
    refine ⟨items ++ [(e, asked)], hitems.call e ht hasked, ?_, ?_⟩
    · rw [List.map_append, hevents]
      rfl
    · exact List.forall_mem_append.mpr ⟨hR, List.forall_mem_singleton.mpr he⟩

/-- The questions that were asked inside the searches. -/
def searched (items : List (Event α V × List (Request V))) : List (Request V) :=
  (items.filter fun i => i.1.query.isSearch).flatMap Prod.snd

/-- What only searches ask for is asked for inside the searches. -/
theorem countP_searched {kind : Request V → Bool}
    (h : ∀ i ∈ items, i.1.query.isSearch = false → i.2.countP kind = 0) :
    (items.flatMap Prod.snd).countP kind = (searched items).countP kind := by
  induction items with
  | nil => rfl
  | cons i items ih =>
    obtain ⟨hi, hitems⟩ := List.forall_mem_cons.mp h
    rw [List.flatMap_cons, List.countP_append, ih hitems]
    unfold searched
    rw [List.filter_cons]
    split_ifs with hsearch
    · rw [List.flatMap_cons, List.countP_append]
    · rw [hi (Bool.eq_false_iff.mpr hsearch), Nat.zero_add]

/-- What every event of a kind asks for once, and no other at all. -/
theorem countP_flatMap {kind : Request V → Bool} {counts : Query α V → Bool}
    (h : ∀ i ∈ items, i.2.countP kind = if counts i.1.query then 1 else 0) :
    (items.flatMap Prod.snd).countP kind =
      (items.map Prod.fst).countP fun e => counts e.query := by
  induction items with
  | nil => rfl
  | cons i items ih =>
    obtain ⟨hi, hitems⟩ := List.forall_mem_cons.mp h
    rw [List.flatMap_cons, List.countP_append, ih hitems, hi, List.map_cons, List.countP_cons,
      Nat.add_comm]

section Opening
variable [Scalar α] [Space α V] [Curved α V M] {x : V}

/-- A finite start is asked about once. -/
theorem requests_openAt {r : Iterate α V ⊕ Stop α V} (hx : Space.finite x = true)
    (hopened : d.opened x = .ok r) :
    (openAt (d.work (Space.size x)) x).start.2.requests = #[.value x, .gradient x] := by
  have hquiet := d.problem.quiet_differentiable (Space.size x) d.strategy.needsHessian
  have hasked : Ensures (fun l => l.requests = #[]) (openAt (d.work (Space.size x)) x)
      (Answered fun _ l => l.requests = #[.value x, .gradient x]) := by
    refine .ite (fun _ => ?_) fun hno => absurd hx hno
    refine .bind (R := fun _ l => l.requests = #[.value x]) (fun l hl => ?_) (fun f => ?_)
      fun _ _ _ => trivial
    · exact (hquiet.perform_value x l).2.trans (by rw [hl]; rfl)
    refine .bind (R := fun _ l => l.requests = #[.value x, .gradient x]) (fun l hl => ?_)
      (fun g => .ite (fun _ => .pure fun _ hl => hl) fun _ => .pure fun _ hl => hl)
      fun _ _ _ => trivial
    exact (hquiet.perform_gradient x l).2.trans (by rw [hl]; rfl)
  have hopen := hasked {} rfl
  rwa [show ((openAt (d.work (Space.size x)) x).run.run {}).1 = .ok r from hopened] at hopen

theorem iterations_of_opened {stop : Stop α V} (hopened : d.opened x = .ok (.inr stop)) :
    stop.iterations = 0 := by
  have hnone : Yields (openAt (d.work (Space.size x)) x) fun r =>
      ∀ stop, r = .inr stop → stop.iterations = 0 := by
    refine .ite (fun _ => .bind .any fun f _ => .bind .any fun g _ => ?_) fun _ => .pure ?_
    · refine .ite (fun _ => .pure fun _ h => by cases h) fun _ => .pure ?_
      rintro _ ⟨⟩
      rfl
    · rintro _ ⟨⟩
      rfl
  have hopen := hnone {} trivial
  rw [show ((openAt (d.work (Space.size x)) x).run.run {}).1 = .ok (.inr stop)
    from hopened] at hopen
  exact hopen stop rfl

end Opening

end Descent

namespace Phase
variable [Scalar α] [Space α V]

/-- A direction was asked for, and no step was accepted since. -/
def pending : Phase α V → ℕ
  | ready _ => 0
  | _ => 1

/-- Every direction that was asked for led to a step, but for the one that is pending. -/
theorem countP_compute {p : Phase α V} {events : List (Event α V)} (h : p.Obeys events) :
    events.countP (fun e => e.query.isCompute) + p.pending =
      (p.accepted events).length + (p.along events).pending := by
  induction events generalizing p with
  | nil => simp [accepted, along]
  | cons e events ih =>
    obtain ⟨q, r⟩ := e
    have hrest := ih h.2
    have hstep : (if q.isCompute then 1 else 0) + p.pending =
        (p.answered ⟨q, r⟩).accepted?.toList.length + (p.answered ⟨q, r⟩).pending := by
      cases due_of_eq_some h.1 <;> cases r <;> rfl
    rw [List.countP_cons, accepted, List.length_append, along, List.foldl_cons]
    rw [along] at hrest
    dsimp only at hstep ⊢
    omega

end Phase

/-- A run that was not stopped in the middle of an iteration has asked for a direction in each. -/
theorem Descent.Ending.countP_compute [Scalar α] [Space α V] {d : Descent σ ρ α V M}
    {start : Iterate α V} {path : List (Iterate α V)} {events : List (Event α V)} {stop : Stop α V}
    (h : d.Ending start path ((Phase.ready start).along events) stop)
    (hobeys : (Phase.ready start).Obeys events)
    (haccepted : (Phase.ready start).accepted events = path)
    (hstatus : stop.status = .converged ∨ stop.status = .iterationCap) :
    events.countP (fun e => e.query.isCompute) = stop.iterations := by
  have hcount := Phase.countP_compute hobeys
  rw [haccepted] at hcount
  generalize (Phase.ready start).along events = p at h hcount
  cases h with
  | converged => exact hcount
  | capped => exact hcount
  | closed _ _ hclosing =>
    obtain hfailed | hfailed := Phase.status_of_closing hclosing <;> rw [hfailed] at hstatus <;>
      simp at hstatus

end Downhill
