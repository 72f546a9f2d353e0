import Downhill.Direction.Basic

/-! Nonlinear conjugate gradients: `d = -g + beta * d_prev`, with three rules for `beta`. The
direction starts afresh after a set number of steps, whenever `beta` is not positive and whenever
the conjugate direction does not descend. -/
namespace Downhill

/-- The rules of Polak and Ribière and of Hestenes and Stiefel, both cut off at zero, and of
Fletcher and Reeves. -/
inductive BetaRule where
  | polakRibiere
  | fletcherReeves
  | hestenesStiefel
  deriving Repr, DecidableEq

namespace BetaRule

def name : BetaRule → String
  | polakRibiere => "PR+"
  | fletcherReeves => "FR"
  | hestenesStiefel => "HS+"

def all : List BetaRule := [polakRibiere, fletcherReeves, hestenesStiefel]

def ofName? (s : String) : Option BetaRule := all.find? (·.name == s)

theorem ofName?_name (r : BetaRule) : ofName? r.name = some r := by cases r <;> rfl

end BetaRule

structure ConjugateGradient where
  rule : BetaRule
  /-- Steps between restarts; without one it is the dimension. -/
  interval : Option Nat
  deriving Repr, DecidableEq

namespace ConjugateGradient
variable {α V M : Type} [Scalar α] [Space α V]

omit [Scalar α] [Space α V] in
/-- The parameters by name and number, if they are accepted. -/
def make (rule : String) (interval : Option Int) : Except (Fault α) ConjugateGradient := do
  match BetaRule.ofName? rule with
  | none => throw (.setting (.betaRule rule))
  | some rule =>
    match interval with
    | none => return ⟨rule, none⟩
    | some k =>
      if k < 1 then throw (.setting .restartInterval)
      return ⟨rule, some k.toNat⟩

structure Memory (α V : Type) where
  direction : V
  gradient : V
  alpha : α
  deriving Repr, DecidableEq

/-- The slope is that of the last step whose slope could be formed, zero before there is one. -/
structure State (α V : Type) where
  restarts : Nat
  interval : Nat
  memory : Option (Memory α V)
  slope : α
  sinceRestart : Nat
  deriving Repr, DecidableEq

def fresh (s : ConjugateGradient) : State α V := ⟨0, s.interval.getD 1, none, 0, 0⟩

/-- Forgets the last step. -/
def State.cleared (st : State α V) : State α V :=
  { st with memory := none, slope := 0, sinceRestart := 0 }

def beta (rule : BetaRule) (last : Memory α V) (gradient : V) : Except (Fault α) α := do
  let y ← Space.difference? gradient last.gradient
  match rule with
  | .fletcherReeves =>
    let now ← Space.product? gradient gradient
    quotient now (← Space.product? last.gradient last.gradient)
  | .polakRibiere =>
    let change ← Space.product? gradient y
    return Scalar.larger 0 (← quotient change (← Space.product? last.gradient last.gradient))
  | .hestenesStiefel =>
    let d ← Space.product? last.direction y
    if d == 0 then return 0
    else return Scalar.larger 0 ((← Space.product? gradient y) / d)

/-- Steepest descent for a stated reason. -/
def restart (gradient : V) (reason : Restart) : Act (State α V) α V V := do
  Act.modifyState fun st => { st with restarts := st.restarts + 1, sinceRestart := 0 }
  Act.remark (.restarted reason)
  return -gradient

def direction (s : ConjugateGradient) (gradient : V) : Act (State α V) α V V := do
  let st ← Act.state
  match st.memory with
  | none => return -gradient
  | some last =>
    if st.interval ≤ st.sinceRestart then restart gradient .periodic
    else
      let b ← Act.ofExcept (beta s.rule last gradient)
      if 0 < b then
        let d ← Act.ofExcept (Space.sum? (-gradient) (b * last.direction))
        if (← Act.ofExcept (Space.product? gradient d)) < 0 then return d
        else restart gradient .notDescending
      else restart gradient .noConjugacy

/-- The step that repeats the last decrease to first order, at most one. -/
def firstStep (st : State α V) (gradient direction : V) : Except (Fault α) α := do
  match st.memory with
  | none => cautiousStep gradient
  | some last =>
    let guess ← quotient (last.alpha * st.slope) (← Space.product? gradient direction)
    if 0 < guess ∧ Scalar.isFinite guess then return Scalar.smaller 1 guess else return 1

/-- Takes in an accepted step. The slope is formed last, so that a step without one is remembered
but does not count. -/
def record (y gradient : V) (alpha : α) (direction : V) : Act (State α V) α V Unit := do
  let previous ← Act.ofExcept (Space.difference? gradient y)
  Act.modifyState fun st => { st with memory := some ⟨direction, previous, alpha⟩ }
  let slope ← Act.ofExcept (Space.product? previous direction)
  Act.modifyState fun st => { st with slope, sinceRestart := st.sinceRestart + 1 }

def strategy (s : ConjugateGradient) : Strategy (State α V) α V M where
  name := "nonlinear_cg"
  needsHessian := false
  prepare _ start st := .ok ⟨st.restarts, s.interval.getD (Space.size start.point), none, 0, 0⟩
  compute _ it := s.direction it.gradient
  initialStep gradient direction := do
    return some (← Act.ofExcept (firstStep (← Act.state) gradient direction))
  update _ y gradient alpha direction := record y gradient alpha direction
  reset := Act.modifyState fun st => { st.cleared with restarts := st.restarts + 1 }

end ConjugateGradient

end Downhill
