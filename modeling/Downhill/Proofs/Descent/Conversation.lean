import Downhill.Descent.Run
import Downhill.Proofs.Ensures

/-! What a run says to its strategy and to its search. An event is a call with its answer; a
transcript lists the events of a run, each answered by the machine in the state in which the earlier
ones left it. The protocol is a state machine of its own, which sees the answers alone: in every
phase of an iteration it names the call that is due. -/
namespace Downhill
variable {σ ρ α V M : Type}

/-- A call of an iteration, with what is handed over. -/
inductive Query (α V : Type) where
  | compute (x : Iterate α V)
  | reset
  | initialStep (gradient direction : V)
  | search (ray : Ray α V) (asked : Option α)
  | update (s y gradient : V) (alpha : α) (direction : V)
  deriving Repr, DecidableEq

namespace Query

abbrev Answer : Query α V → Type
  | compute _ => V
  | reset => Unit
  | initialStep _ _ => Option α
  | search _ _ => Step α V
  | update .. => Unit

/-- The call as a run enters it. -/
def call : Query α V → Call α V
  | compute _ => .compute
  | reset => .reset
  | initialStep gradient direction => .initialStep gradient direction
  | search ray _ => .search ray.direction
  | update s y gradient alpha direction => .update s y gradient alpha direction

def isCompute : Query α V → Bool
  | compute _ => true
  | _ => false

def isReset : Query α V → Bool
  | reset => true
  | _ => false

def isSearch : Query α V → Bool
  | search _ _ => true
  | _ => false

/-- A search along the opposite of the gradient. -/
def isSteepest [Space α V] : Query α V → Bool
  | search ray _ => ray.direction == -ray.start.gradient
  | _ => false

theorem call_ne_prepare (q : Query α V) : q.call ≠ .prepare := by
  cases q <;> nofun

end Query

/-- A call with its answer, which is a fault where the machine fails. -/
structure Event (α V : Type) where
  query : Query α V
  answer : Except (Fault α) query.Answer

def Event.call (e : Event α V) : Call α V := e.query.call

namespace Descent

/-- What is computed to answer a call. -/
def serve (d : Descent σ ρ α V M) (o : Oracle α V M) :
    (q : Query α V) → Act (Flow σ ρ α V) α V q.Answer
  | .compute x => ask (d.strategy.compute o x)
  | .reset => ask d.strategy.reset
  | .initialStep gradient direction => ask (d.strategy.initialStep gradient direction)
  | .search ray asked => look (d.search.run o ray asked)
  | .update s y gradient alpha direction => ask (d.strategy.update s y gradient alpha direction)

/-- The events of a part of a run. A call is entered and then answered; in between the run makes
remarks and notes the iterates that it accepts. -/
inductive Transcript (d : Descent σ ρ α V M) (o : Oracle α V M)
    (start : Flow σ ρ α V × Ledger α V) :
    List (Event α V) → Flow σ ρ α V × Ledger α V → Prop
  | begin : Transcript d o start [] start
  | remark {events : List (Event α V)} {f : Flow σ ρ α V} {l : Ledger α V}
      (h : Transcript d o start events (f, l)) (r : Remark α) :
      Transcript d o start events (f, { l with remarks := l.remarks.push r })
  | accept {events : List (Event α V)} {f : Flow σ ρ α V} {l : Ledger α V}
      (h : Transcript d o start events (f, l)) (y : Iterate α V) :
      Transcript d o start events ({ f with trace := f.trace.push y }, l)
  | call {events : List (Event α V)} {f : Flow σ ρ α V} {l : Ledger α V}
      (h : Transcript d o start events (f, l)) (e : Event α V) {t : Flow σ ρ α V × Ledger α V}
      (ht : (d.serve o e.query).perform { f with calls := f.calls.push e.call } l = (e.answer, t)) :
      Transcript d o start (events ++ [e]) t

variable {d : Descent σ ρ α V M} {o : Oracle α V M} {start t : Flow σ ρ α V × Ledger α V}
  {events : List (Event α V)}

@[simp] theorem calls_serve (q : Query α V) (f : Flow σ ρ α V) (l : Ledger α V) :
    ((d.serve o q).perform f l).2.1.calls = f.calls := by
  cases q <;> rfl

@[simp] theorem trace_serve (q : Query α V) (f : Flow σ ρ α V) (l : Ledger α V) :
    ((d.serve o q).perform f l).2.1.trace = f.trace := by
  cases q <;> rfl

/-- The calls that a run entered are those of its events. -/
theorem Transcript.calls_eq (h : d.Transcript o start events t) :
    t.1.calls.toList = start.1.calls.toList ++ events.map Event.call := by
  induction h with
  | begin => simp
  | remark h r ih => exact ih
  | accept h y ih => exact ih
  | @call events f l h e t ht ih =>
    have hcalls : t.1.calls = f.calls.push e.call := by
      rw [← congrArg (fun r => r.2.1.calls) ht, calls_serve]
    rw [hcalls, Array.toList_push, ih, List.map_append, List.append_assoc]
    rfl

end Descent

/-- Where an iteration at `x` stands. Once a search has failed, the next one is a repetition. -/
inductive Phase (α V : Type) where
  | ready (x : Iterate α V)
  | proposed (x : Iterate α V) (direction : V)
  /-- Steepest descent took the place of another direction. -/
  | aimed (x : Iterate α V) (again : Bool)
  | primed (x : Iterate α V) (direction : V) (again : Bool) (asked : Option α)
  | searched (x : Iterate α V) (direction : V) (again : Bool) (step : Step α V)
  | broken (x : Iterate α V) (fault : Fault α)
  deriving Repr, DecidableEq

namespace Phase

def iterate : Phase α V → Iterate α V
  | ready x | proposed x _ | aimed x _ | primed x _ _ _ | searched x _ _ _ | broken x _ => x

variable [Space α V]

/-- The phase after the answer to a call that was due. -/
def after : Phase α V → (q : Query α V) → q.Answer → Phase α V
  | ready x, .compute _, direction => proposed x direction
  | proposed x direction, .initialStep _ _, asked => primed x direction false asked
  | proposed x _, .reset, _ => aimed x false
  | aimed x again, .initialStep _ _, asked => primed x (-x.gradient) again asked
  | primed x direction again _, .search _ _, step => searched x direction again step
  | searched x _ _ _, .reset, _ => aimed x true
  | searched _ _ _ step, .update .., _ => ready step.reached
  | p, _, _ => p

def answered (p : Phase α V) (e : Event α V) : Phase α V :=
  match e.answer with
  | .ok answer => p.after e.query answer
  | .error f => broken p.iterate f

/-- The phase after some events. -/
def along (p : Phase α V) (events : List (Event α V)) : Phase α V := events.foldl answered p

/-- The iterate that an iteration has just accepted. -/
def accepted? : Phase α V → Option (Iterate α V)
  | ready x => some x
  | _ => none

/-- The iterates that are accepted in the course of some events. -/
def accepted (p : Phase α V) : List (Event α V) → List (Iterate α V)
  | [] => []
  | e :: events => (p.answered e).accepted?.toList ++ (p.answered e).accepted events

section Events
variable (p : Phase α V) (es fs : List (Event α V))

theorem along_append : p.along (es ++ fs) = (p.along es).along fs := List.foldl_append

theorem accepted_append : p.accepted (es ++ fs) = p.accepted es ++ (p.along es).accepted fs := by
  induction es generalizing p with
  | nil => rfl
  | cons e es ih => simp [accepted, ih, along]

end Events

variable [Scalar α]

/-- The call that is due. A finite direction that does not descend is replaced after a reset; a
first search that failed along any direction but the opposite of the gradient is repeated after one;
a successful step to finite values is reported. -/
def due : Phase α V → Option (Query α V)
  | ready x => some (.compute x)
  | proposed x direction =>
    if Space.finite direction then
      if Space.inner x.gradient direction < 0 then some (.initialStep x.gradient direction)
      else some .reset
    else none
  | aimed x _ => some (.initialStep x.gradient (-x.gradient))
  | primed x direction _ asked => some (.search ⟨x, direction⟩ asked)
  | searched x direction again step =>
    if step.success then
      if Descent.finiteStep step then
        some (.update (step.reached.point - x.point) (step.reached.gradient - x.gradient)
          step.reached.gradient step.alpha direction)
      else none
    else if again || direction == -x.gradient then none
    else some .reset
  | broken _ _ => none

/-- Why a run ends in a phase in which no call is due. -/
def closing : Phase α V → Option (Status × RunMessage α)
  | proposed _ direction =>
    if Space.finite direction then none else some (.numericalError, .directionNotFinite)
  | searched x direction again step =>
    if step.success then
      if Descent.finiteStep step then none else some (.numericalError, .stepNotFinite)
    else if again || direction == -x.gradient then some (.searchFailed, .search step.message)
    else none
  | broken _ (.numerical f) => some (.numericalError, .numerical f)
  | _ => none

/-- Every call is the one that is due when it is made. -/
def Obeys (p : Phase α V) : List (Event α V) → Prop
  | [] => True
  | e :: events => p.due = some e.query ∧ (p.answered e).Obeys events

theorem obeys_append (p : Phase α V) (es fs : List (Event α V)) :
    p.Obeys (es ++ fs) ↔ p.Obeys es ∧ (p.along es).Obeys fs := by
  induction es generalizing p with
  | nil => simp [Obeys, along]
  | cons e es ih => simp [Obeys, ih, and_assoc, along]

/-- The calls that are due, with the reason. -/
inductive Due : Phase α V → Query α V → Prop
  | compute (x : Iterate α V) : Due (.ready x) (.compute x)
  | descends {x : Iterate α V} {direction : V} (hfin : Space.finite direction = true)
      (hneg : Space.inner x.gradient direction < 0) :
      Due (.proposed x direction) (.initialStep x.gradient direction)
  | replaced {x : Iterate α V} {direction : V} (hfin : Space.finite direction = true)
      (hneg : ¬ Space.inner x.gradient direction < 0) : Due (.proposed x direction) .reset
  | steepest (x : Iterate α V) (again : Bool) :
      Due (.aimed x again) (.initialStep x.gradient (-x.gradient))
  | search (x : Iterate α V) (direction : V) (again : Bool) (asked : Option α) :
      Due (.primed x direction again asked) (.search ⟨x, direction⟩ asked)
  | repeated {x : Iterate α V} {direction : V} {again : Bool} {step : Step α V}
      (hfail : step.success = false) (hfirst : (again || direction == -x.gradient) = false) :
      Due (.searched x direction again step) .reset
  | update {x : Iterate α V} {direction : V} {again : Bool} {step : Step α V}
      (hok : step.success = true) (hfin : Descent.finiteStep step = true) :
      Due (.searched x direction again step) (.update (step.reached.point - x.point)
        (step.reached.gradient - x.gradient) step.reached.gradient step.alpha direction)

theorem due_of_eq_some {p : Phase α V} {q : Query α V} (h : p.due = some q) : Due p q := by
  unfold due at h
  split at h <;> (try split_ifs at h) <;> cases h
  · exact .compute _
  · exact .descends ‹_› ‹_›
  · exact .replaced ‹_› ‹_›
  · exact .steepest _ _
  · exact .search _ _ _ _
  · exact .update ‹_› ‹_›
  · rename_i hfail hfirst
    exact .repeated (Bool.eq_false_iff.mpr hfail) (Bool.eq_false_iff.mpr hfirst)

end Phase

end Downhill
