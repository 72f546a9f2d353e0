import Downhill.Direction.Basic
import Downhill.LineSearch.Basic

/-! Strategies and searches that follow a script. Their answers are fixed in advance, whatever the
problem: each call takes the next one, and the last is repeated. -/
namespace Downhill.Script
variable {α V M β : Type}

/-- Answer number `k` of a script. -/
def answer? (script : List β) (k : Nat) : Option β := (script[k]?).or script.getLast?

theorem answer?_of_lt {script : List β} {k : Nat} (h : k < script.length) :
    answer? script k = some script[k] := by simp [answer?, h]

theorem answer?_of_le {script : List β} {k : Nat} (h : script.length ≤ k) :
    answer? script k = script.getLast? := by simp [answer?, List.getElem?_eq_none h]

/-- A direction, or a refusal to give one. -/
inductive Cue (V : Type) where
  | steepest
  | along (direction : V)
  | declined (words : String)
  deriving Repr, DecidableEq

/-- A strategy by its answers; a missing first step leaves it to the search. -/
structure Directions (α V : Type) where
  label : String
  needsHessian : Bool
  directions : List (Cue V)
  steps : List (Option α)
  deriving Repr, DecidableEq

/-- How often each call was made, and what the problem showed of itself at the start. -/
structure Tally where
  computed : Nat := 0
  resets : Nat := 0
  updates : Nat := 0
  guesses : Nat := 0
  sees : Option (Option Int × Bool × Bool) := none
  deriving Repr, DecidableEq

/-- The answer whose turn it is. An empty script has none. -/
def answerAt {σ : Type} (script : List β) (k : Nat) : Act σ α V β :=
  match answer? script k with
  | some answer => return answer
  | none => throw .missingEntry

def Directions.compute [Neg V] (s : Directions α V) (gradient : V) : Act Tally α V V := do
  let answer ← answerAt s.directions (← Act.state).computed
  Act.modifyState fun t => { t with computed := t.computed + 1 }
  match answer with
  | .steepest => return -gradient
  | .along direction => return direction
  | .declined words => throw (.numerical (.declined words))

def Directions.initialStep (s : Directions α V) : Act Tally α V (Option α) := do
  let answer ← answerAt s.steps (← Act.state).guesses
  Act.modifyState fun t => { t with guesses := t.guesses + 1 }
  return answer

/-- The script as a strategy, which counts its calls. -/
def Directions.strategy [Neg V] (s : Directions α V) : Strategy Tally α V M where
  name := s.label
  needsHessian := s.needsHessian
  prepare o _ t :=
    if o.present then .ok { t with sees := some (o.dimension, o.hasGradient, o.hasHessian) }
    else .error .noSuchPart
  compute _ it := s.compute it.gradient
  initialStep _ _ := s.initialStep
  update _ _ _ _ _ := Act.modifyState fun t => { t with updates := t.updates + 1 }
  reset := Act.modifyState fun t => { t with resets := t.resets + 1 }

structure Verdict (α V : Type) where
  alpha : α
  reached : Iterate α V
  success : Bool
  message : String
  deriving Repr, DecidableEq

/-- A verdict as a step, for which nothing was evaluated. -/
def Verdict.step (v : Verdict α V) : Step α V :=
  ⟨v.alpha, v.reached, 0, 0, v.success, .text v.message⟩

def searchName : String := "Scripted"

/-- A search by its answers; the state counts the calls. -/
def search (verdicts : List (Verdict α V)) : Search Nat α V M where
  name := searchName
  enforcesCurvature := false
  run _ _ _ := do
    let verdict ← answerAt verdicts (← Act.state)
    Act.modifyState (· + 1)
    return verdict.step

def searcher (verdicts : List (Verdict α V)) : Searcher α V M := ⟨Nat, search verdicts, 0⟩

end Downhill.Script
