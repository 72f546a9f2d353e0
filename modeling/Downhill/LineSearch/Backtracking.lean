import Downhill.LineSearch.Basic

/-! Backtracking with a fixed contraction factor: the first trial with sufficient decrease is
taken. -/
namespace Downhill

structure Backtracking (α : Type) where
  alpha0 : α
  rho : α
  c1 : α
  maxIter : Int
  alphaMin : α
  deriving Repr, DecidableEq

namespace Backtracking
variable {α V M : Type} [Scalar α] [Space α V]

def standard : Backtracking α := ⟨1.0, 0.5, 1e-4, 60, 1e-16⟩

def check (s : Backtracking α) : Except (Fault α) Unit := do
  checkArmijo s.c1
  unless 0 < s.rho ∧ s.rho < 1 do throw (.setting .contraction)
  unless 1 ≤ s.maxIter do throw (.setting .trialCap)

/-- The trial step, and the number of trials before it. -/
structure State (α : Type) where
  alpha : α
  trials : Nat

def attempt (s : Backtracking α) (o : Oracle α V M) (r : Ray α V) (slope : α) (t : State α) :
    Eval α V (State α ⊕ Step α V) := do
  let x := r.along t.alpha
  let f ← trialValue o x t.alpha
  if sufficientDecrease f r.start.value t.alpha slope s.c1 then
    let g ← trialGradient o x t.alpha
    return .inr (.accepted t.alpha ⟨x, f, g⟩ (t.trials + 1) 1 .armijo)
  else
    let alpha := t.alpha * s.rho
    if alpha < s.alphaMin then
      return .inr (.failed r (t.trials + 1) 0 (.tooShort s.alphaMin))
    else
      return .inl ⟨alpha, t.trials + 1⟩

def search (s : Backtracking α) (o : Oracle α V M) (r : Ray α V) (asked : Option α) :
    Eval α V (Step α V) := do
  let (slope, alpha) ← Eval.ofExcept (r.prepare s.alpha0 asked)
  match ← upTo (s.attempt o r slope) s.maxIter.toNat ⟨alpha, 0⟩ with
  | .inr step => return step
  | .inl t => return .failed r t.trials 0 (.noStep s.maxIter.toNat)

end Backtracking

end Downhill
