import Downhill.Act
import Downhill.Linear.Space

/-! The part of a descent method that chooses directions: a machine whose state may outlive a
run. -/
namespace Downhill

structure Strategy (σ α V M : Type) where
  name : String
  needsHessian : Bool
  /-- Prepares for a run from a start, whatever the state was. -/
  prepare : Oracle α V M → Iterate α V → σ → Except (Fault α) σ
  /-- A direction at the current iterate; it is checked by whoever follows it. -/
  compute : Oracle α V M → Iterate α V → Act σ α V V
  /-- The first trial step along a direction; none leaves it to the search. -/
  initialStep : (gradient direction : V) → Act σ α V (Option α)
  /-- Takes in an accepted step `s`, the change `y` of the gradient, the new gradient, the step
  length and the direction. -/
  update : (s y gradient : V) → α → (direction : V) → Act σ α V Unit
  /-- Drops what was accumulated. -/
  reset : Act σ α V Unit

structure Strategist (α V M : Type) where
  State : Type
  strategy : Strategy State α V M
  fresh : State

def Strategy.base {α V M : Type} : Strategy Unit α V M where
  name := "descent"
  needsHessian := false
  prepare _ _ _ := .ok ()
  compute _ _ := throw .abstract
  initialStep _ _ := return none
  update _ _ _ _ _ := return
  reset := return

/-- A quotient whose divisor must not be zero. -/
def quotient {α : Type} [Scalar α] (a b : α) : Except (Fault α) α :=
  if b == 0 then .error .zeroDivision else .ok (a / b)

/-- The first step along a direction of which nothing is known: at most one, and no longer than
brings the gradient to length one. -/
def cautiousStep {α V : Type} [Scalar α] [Space α V] (gradient : V) : Except (Fault α) α := do
  return Scalar.smaller 1 (← quotient 1 (Space.norm gradient))

end Downhill
