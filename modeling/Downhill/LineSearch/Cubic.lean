import Downhill.LineSearch.Basic
import Downhill.LineSearch.Interpolation

/-! Backtracking with trial steps from interpolation: the first shrink minimizes the quadratic
through the start and the trial, later ones the cubic that also passes through the trial before.
The new step is kept within a share of the old one. -/
namespace Downhill

structure CubicBacktracking (α : Type) where
  alpha0 : α
  rho : α
  c1 : α
  low : α
  high : α
  maxIter : Int
  alphaMin : α
  deriving Repr, DecidableEq

namespace CubicBacktracking
variable {α V M : Type} [Scalar α] [Space α V]

def standard : CubicBacktracking α := ⟨1.0, 0.5, 1e-4, 0.1, 0.5, 60, 1e-16⟩

def check (s : CubicBacktracking α) : Except (Fault α) Unit := do
  checkArmijo s.c1
  unless 0 < s.rho ∧ s.rho < 1 do throw (.setting .contraction)
  unless 0 < s.low ∧ s.low ≤ s.high ∧ s.high < 1 do throw (.setting .safeguard)
  unless 1 ≤ s.maxIter do throw (.setting .trialCap)

/-- The trial step, the trial before it with its value, and the number of trials so far. -/
structure State (α : Type) where
  alpha : α
  previous : Option (α × α)
  trials : Nat

/-- The step after a rejected trial of value `f`. -/
def shrink (s : CubicBacktracking α) (f0 slope : α) (t : State α) (f : α) :
    Except (Fault α) α := do
  let minimizer ← match t.previous with
    | none => Interpolation.quadraticMinimizer f0 slope t.alpha f
    | some (a0, fa0) => Interpolation.cubicMinimizer f0 slope a0 fa0 t.alpha f
  return Scalar.clamp (s.low * t.alpha) (s.high * t.alpha) (minimizer.getD (s.rho * t.alpha))

def attempt (s : CubicBacktracking α) (o : Oracle α V M) (r : Ray α V) (slope : α) (t : State α) :
    Eval α V (State α ⊕ Step α V) := do
  let x := r.along t.alpha
  let f ← trialValue o x t.alpha
  if sufficientDecrease f r.start.value t.alpha slope s.c1 then
    let g ← trialGradient o x t.alpha
    return .inr (.accepted t.alpha ⟨x, f, g⟩ (t.trials + 1) 1 .armijo)
  else
    let alpha ← Eval.ofExcept (s.shrink r.start.value slope t f)
    if alpha < s.alphaMin then
      return .inr (.failed r (t.trials + 1) 0 (.tooShort s.alphaMin))
    else
      return .inl ⟨alpha, some (t.alpha, f), t.trials + 1⟩

def search (s : CubicBacktracking α) (o : Oracle α V M) (r : Ray α V) (asked : Option α) :
    Eval α V (Step α V) := do
  let (slope, alpha) ← Eval.ofExcept (r.prepare s.alpha0 asked)
  match ← upTo (s.attempt o r slope) s.maxIter.toNat ⟨alpha, none, 0⟩ with
  | .inr step => return step
  | .inl t => return .failed r t.trials 0 (.noStep s.maxIter.toNat)

end CubicBacktracking

end Downhill
