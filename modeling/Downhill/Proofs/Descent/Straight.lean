import Downhill.Proofs.Descent.Answers
import Downhill.Proofs.Descent.Resume

/-! Iterations that go straight. Where every call has one answer, whatever was said before, the
events of a run follow from its start; an iteration whose direction descends searches along it, and
if that search succeeds the next iteration begins where it ended. -/
namespace Downhill
variable {σ α V M : Type}

/-- The step that a search has found. -/
def Event.step? : Event α V → Option (Step α V)
  | ⟨.search _ _, .ok step⟩ => some step
  | _ => none

/-- The steps that the searches of a run have found, in order. -/
def found (events : List (Event α V)) : List (Step α V) := events.filterMap Event.step?

/-- The iterates that a run visits which begins at `y`. -/
def visited [Space α V] (y : Iterate α V) (events : List (Event α V)) : List (Iterate α V) :=
  y :: (Phase.ready y).accepted events

namespace Phase
variable [Space α V] [Scalar α] {A : (q : Query α V) → Except (Fault α) q.Answer} {p : Phase α V}
  {events : List (Event α V)}

/-- Every call is due, and has the answer that `A` gives. -/
def Hears (A : (q : Query α V) → Except (Fault α) q.Answer) (p : Phase α V)
    (events : List (Event α V)) : Prop :=
  p.Obeys events ∧ ∀ e ∈ events, e.answer = A e.query

/-- Nothing comes of the events: no search finds a step, and no iterate is accepted. -/
def Fruitless (p : Phase α V) (events : List (Event α V)) : Prop :=
  found events = [] ∧ p.accepted events = []

/-- The next iterate of the path is `y`, and an iteration from there leads to the rest of it. -/
def Reaches (A : (q : Query α V) → Except (Fault α) q.Answer) (y : Iterate α V)
    (steps : List (Step α V)) (path : List (Iterate α V)) : Prop :=
  ∃ rest, steps = found rest ∧ path = y :: (ready y).accepted rest ∧ (ready y).Hears A rest

/-- The first search finds a step. If that one succeeded and anything comes after it, the iterate
that it reached is accepted. -/
def Leads (A : (q : Query α V) → Except (Fault α) q.Answer) (p : Phase α V) (step : Step α V)
    (events : List (Event α V)) : Prop :=
  ∃ steps, found events = step :: steps ∧ (step.success = true →
    steps = [] ∧ p.accepted events = [] ∨ Reaches A step.reached steps (p.accepted events))

omit [Scalar α] in
theorem Fruitless.nil : p.Fruitless [] := ⟨rfl, rfl⟩

namespace Hears

/-- The events break off, or they go on with the call that is due. -/
theorem next (h : p.Hears A events) {q : Query α V} (hq : p.due = some q) :
    events = [] ∨ ∃ rest, events = ⟨q, A q⟩ :: rest ∧ (p.answered ⟨q, A q⟩).Hears A rest := by
  obtain ⟨hobeys, hanswers⟩ := h
  cases events with
  | nil => exact .inl rfl
  | cons e rest =>
    obtain ⟨q', r⟩ := e
    obtain ⟨hanswer, hrest⟩ := List.forall_mem_cons.mp hanswers
    obtain rfl : q = q' := Option.some.inj (hq.symm.trans hobeys.1)
    obtain rfl : r = A q := hanswer
    exact .inr ⟨rest, rfl, hobeys.2, hrest⟩

theorem eq_nil (h : p.Hears A events) (hq : p.due = none) : events = [] := by
  cases events with
  | nil => rfl
  | cons e rest => cases hq.symm.trans h.1.1

/-- A run whose next call fails is over. -/
theorem fruitless_of_error (h : p.Hears A events) {q : Query α V} (hq : p.due = some q)
    {f : Fault α} (hf : A q = .error f) : p.Fruitless events := by
  obtain rfl | ⟨rest, rfl, hrest⟩ := h.next hq
  · exact .nil
  · rw [hf] at hrest ⊢
    obtain rfl := hrest.eq_nil rfl
    cases q <;> exact ⟨rfl, rfl⟩

variable {x : Iterate α V} {v : V} {asked : Option α}

/-- After the search of an iteration. A step that succeeded leads to the next iteration. -/
theorem after_search {again : Bool} {step : Step α V}
    (h : (searched x v again step).Hears A events) (hok : step.success = true) :
    (searched x v again step).Fruitless events ∨
      Reaches A step.reached (found events) ((searched x v again step).accepted events) := by
  by_cases hfin : Descent.finiteStep step = true
  · have hdue : (searched x v again step).due = some (.update
        (step.reached.point - x.point) (step.reached.gradient - x.gradient)
        step.reached.gradient step.alpha v) := by simp only [due, if_pos hok, if_pos hfin]
    cases hr : A (.update (step.reached.point - x.point) (step.reached.gradient - x.gradient)
      step.reached.gradient step.alpha v) with
    | error f => exact .inl (h.fruitless_of_error hdue hr)
    | ok _ =>
      obtain rfl | ⟨rest, rfl, hrest⟩ := h.next hdue
      · exact .inl .nil
      · rw [hr] at hrest ⊢
        exact .inr ⟨rest, rfl, rfl, hrest⟩
  · have hdue : (searched x v again step).due = none := by
      simp only [due, if_pos hok, if_neg hfin]
    obtain rfl := h.eq_nil hdue
    exact .inl .nil

/-- An iteration along a direction that descends searches along it. -/
theorem iteration (h : (ready x).Hears A events) (hv : A (.compute x) = .ok v)
    (hfin : Space.finite v = true) (hneg : Space.inner x.gradient v < 0)
    (hasked : A (.initialStep x.gradient v) = .ok asked) :
    (ready x).Fruitless events ∨
      ∃ step, A (.search ⟨x, v⟩ asked) = .ok step ∧ (ready x).Leads A step events := by
  obtain rfl | ⟨events, rfl, hproposed⟩ := h.next (q := .compute x) rfl
  · exact .inl .nil
  rw [hv] at hproposed ⊢
  have hdue : (proposed x v).due = some (.initialStep x.gradient v) := by
    simp only [due, if_pos hfin, if_pos hneg]
  obtain rfl | ⟨events, rfl, hprimed⟩ := Hears.next (p := proposed x v) hproposed hdue
  · exact .inl ⟨rfl, rfl⟩
  rw [hasked] at hprimed ⊢
  have hprimed : (primed x v false asked).Hears A events := hprimed
  cases hr : A (.search ⟨x, v⟩ asked) with
  | error f => exact .inl (hprimed.fruitless_of_error rfl hr)
  | ok step =>
    obtain rfl | ⟨events, rfl, hsearched⟩ := hprimed.next (q := .search ⟨x, v⟩ asked) rfl
    · exact .inl ⟨rfl, rfl⟩
    rw [hr] at hsearched ⊢
    have hsearched : (searched x v false step).Hears A events := hsearched
    exact .inr ⟨step, rfl, found events, rfl, fun hok => hsearched.after_search hok⟩

/-- Nothing comes of an iteration whose direction does not descend if the search along the opposite
of the gradient is refused. -/
theorem idle {f : Fault α} (h : (ready x).Hears A events) (hv : A (.compute x) = .ok v)
    (hfin : Space.finite v = true) (hneg : ¬ Space.inner x.gradient v < 0)
    (hreset : A .reset = .ok ()) (hasked : A (.initialStep x.gradient (-x.gradient)) = .ok asked)
    (hsearch : A (.search ⟨x, -x.gradient⟩ asked) = .error f) :
    (ready x).Fruitless events := by
  obtain rfl | ⟨events, rfl, hproposed⟩ := h.next (q := .compute x) rfl
  · exact .nil
  rw [hv] at hproposed ⊢
  have hdue : (proposed x v).due = some .reset := by
    simp only [due, if_pos hfin, if_neg hneg]
  obtain rfl | ⟨events, rfl, haimed⟩ := Hears.next (p := proposed x v) hproposed hdue
  · exact ⟨rfl, rfl⟩
  rw [hreset] at haimed ⊢
  obtain rfl | ⟨events, rfl, hprimed⟩ := Hears.next (p := aimed x false) haimed
    (q := .initialStep x.gradient (-x.gradient)) rfl
  · exact ⟨rfl, rfl⟩
  rw [hasked] at hprimed ⊢
  have hidle : (primed x (-x.gradient) false asked).Fruitless events :=
    Hears.fruitless_of_error hprimed rfl hsearch
  exact hidle

end Hears

end Phase

namespace Descent
variable {d : Descent σ Unit α V M} {o : Oracle α V M}

/-- The answer to a call in some state, on a fresh account. -/
def reply (d : Descent σ Unit α V M) (o : Oracle α V M) (f : Flow σ Unit α V) (q : Query α V) :
    Except (Fault α) q.Answer :=
  ((d.serve o q).perform f {}).1

variable [Scalar α] [Space α V] {s : LineSearch α} (hd : d.search = s.machine)
  (hvalue : ∀ x, Downhill.Lockstep Unrelated (o.value x) (o.value x))
  (hgradient : ∀ x, Downhill.Lockstep Unrelated (o.gradient x) (o.gradient x))
  (hs : d.strategy.Memoryless o)
include hd hvalue hgradient hs

/-- What a strategy without memory or a search answers does not depend on the state. -/
theorem lockstep_serve (q : Query α V) :
    Downhill.Lockstep (Apart (σ := σ)) (d.serve o q) (d.serve o q) := by
  cases q with
  | compute x => exact lockstep_ask_apart (hs.lockstep.compute x)
  | reset => exact lockstep_ask_apart hs.lockstep.reset
  | initialStep g v => exact lockstep_ask_apart (hs.lockstep.initialStep g v)
  | search ray asked =>
    have hsearch : d.search.Lockstep o o Unrelated := hd ▸ s.lockstep hvalue hgradient
    rw [serve]
    exact Act.lockstep_within (hsearch ray asked) (fun _ _ _ => rfl) fun _ _ _ _ _ _ => trivial
  | update u y g a v => exact lockstep_ask_apart (hs.lockstep.update u y g a v)

/-- So all calls of a run have the answers that they have in any one state. -/
theorem Transcript.answer_eq {begun t : Flow σ Unit α V × Ledger α V} {events : List (Event α V)}
    (h : d.Transcript o begun events t) (f : Flow σ Unit α V) {e : Event α V} (he : e ∈ events) :
    e.answer = d.reply o f e.query := by
  obtain ⟨f', l, hanswer⟩ := h.exists_answer he
  obtain ⟨r, u, u', hl, hfresh, -⟩ := (lockstep_serve hd hvalue hgradient hs e.query).exists_ends
    (show Apart (f', l) (f, {}) from ⟨trivial, trivial⟩)
  have hr : e.answer = r := hanswer.symm.trans (congrArg Prod.fst hl)
  exact hr.trans (congrArg Prod.fst hfresh).symm

end Descent

end Downhill
