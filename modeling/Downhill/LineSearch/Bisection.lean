import Downhill.LineSearch.Basic

/-! Bracketing by doubling and halving. A step without sufficient decrease becomes the upper end of
the bracket, a step that is too short for the curvature condition the lower end; without an upper
end the step doubles, and then the bracket is halved. -/
namespace Downhill

structure Bisection (α : Type) where
  alpha0 : α
  c1 : α
  c2 : α
  wolfe : Bool
  maxIter : Int
  alphaMin : α
  alphaMax : α
  deriving Repr, DecidableEq

namespace Bisection
variable {α V M : Type} [Scalar α] [Space α V]

def standard : Bisection α := ⟨1.0, 1e-4, 0.9, true, 50, 1e-16, 1e10⟩

def check (s : Bisection α) : Except (Fault α) Unit := do
  checkWolfe s.c1 s.c2
  unless 1 ≤ s.maxIter do throw (.setting .trialCap)

/-- The trial step, the bracket, the last step with sufficient decrease and what it reached, and
the evaluations so far. Without an upper end the bracket is unbounded. -/
structure State (α V : Type) where
  alpha : α
  low : α
  high : Option α
  best : Option (α × Iterate α V)
  values : Nat
  gradients : Nat

def initial (alpha : α) : State α V := ⟨alpha, 0, none, none, 0, 0⟩

/-- The upper end at a step; a step beyond all finite ones bounds nothing. -/
def upperEnd (alpha : α) : Option α := if Scalar.isFinite alpha then some alpha else none

/-- The next trial: twice the lower end, or the middle of the bracket. -/
def nextStep (low : α) (high : Option α) : α :=
  match high with
  | none => 2.0 * low
  | some high => 0.5 * (low + high)

/-- The bracket is used up: the next trial leaves the allowed range, or the ends have met. -/
def exhausted (s : Bisection α) (t : State α V) : Bool :=
  t.alpha < s.alphaMin || s.alphaMax < t.alpha ||
    t.high.any fun high => high - t.low < s.alphaMin

/-- Without a step that meets all conditions the last one with sufficient decrease is returned. -/
def conclude (s : Bisection α) (r : Ray α V) (t : State α V) : Step α V :=
  match t.best with
  | some (alpha, reached) => .accepted alpha reached t.values t.gradients .bracketExhausted
  | none => .failed r t.values t.gradients (.noStep s.maxIter.toNat)

/-- Moves the trial into the bracket. -/
def advance (s : Bisection α) (r : Ray α V) (t : State α V) : State α V ⊕ Step α V :=
  let t := { t with alpha := nextStep t.low t.high }
  if s.exhausted t then .inr (s.conclude r t) else .inl t

/-- One trial: it is taken, or it becomes an end of the bracket. -/
def attempt (s : Bisection α) (o : Oracle α V M) (r : Ray α V) (slope : α) (t : State α V) :
    Eval α V (State α V ⊕ Step α V) := do
  let x := r.along t.alpha
  let f ← trialValue o x t.alpha
  let values := t.values + 1
  if sufficientDecrease f r.start.value t.alpha slope s.c1 then
    let g ← trialGradient o x t.alpha
    let gradients := t.gradients + 1
    let reached : Iterate α V := ⟨x, f, g⟩
    if !s.wolfe then
      return .inr (.accepted t.alpha reached values gradients .armijo)
    else
      let forward ← Eval.ofExcept (Space.dot? g r.direction)
      if s.c2 * slope ≤ forward then
        return .inr (.accepted t.alpha reached values gradients .wolfe)
      else
        return s.advance r
          { t with low := t.alpha, best := some (t.alpha, reached), values, gradients }
  else
    return s.advance r { t with high := upperEnd t.alpha, values }

def search (s : Bisection α) (o : Oracle α V M) (r : Ray α V) (asked : Option α) :
    Eval α V (Step α V) := do
  let (slope, alpha) ← Eval.ofExcept (r.prepare s.alpha0 asked)
  match ← upTo (s.attempt o r slope) s.maxIter.toNat (initial alpha) with
  | .inr step => return step
  | .inl t => return s.conclude r t

end Bisection

end Downhill
