import Downhill.Problem.Difference
import Downhill.Problem.Oracle

/-! The problems that are minimized: a value, perhaps a gradient and a Hessian, a stated dimension,
and a test that ends a run. A problem may be asked at any point and may give any answer; the checks
stand where it becomes the oracle of a run. -/
namespace Downhill

structure Problem (α V M : Type) where
  name : String
  dimension : Option Int
  value : V → Except (Fault α) α
  gradient? : Option (V → Except (Fault α) V)
  hessian? : Option (V → Except (Fault α) M)
  /-- The test after every accepted step: previous point, point, gradient and tolerance. -/
  converged : V → V → V → α → Except (Fault α) Bool

/-- The tolerance is never taken to be smaller than this. -/
def leastTolerance {α : Type} [Scalar α] : α := 1e-12

/-- A gradient norm satisfies a tolerance. -/
def withinTolerance {α : Type} [Scalar α] (norm tolerance : α) : Bool :=
  norm ≤ Scalar.larger tolerance leastTolerance

def gradientTest {α V : Type} [Scalar α] [Space α V] (_ _ gradient : V) (tolerance : α) :
    Except (Fault α) Bool :=
  .ok (withinTolerance (Space.norm gradient) tolerance)

namespace Problem
variable {α V M : Type}

def hasGradient (p : Problem α V M) : Bool := p.gradient?.isSome

def hasHessian (p : Problem α V M) : Bool := p.hessian?.isSome

def gradient (p : Problem α V M) (x : V) : Except (Fault α) V :=
  match p.gradient? with
  | some g => g x
  | none => .error (.noGradient p.name)

def hessian (p : Problem α V M) (x : V) : Except (Fault α) M :=
  match p.hessian? with
  | some h => h x
  | none => .error (.noHessian p.name)

/-- The point itself, if it fits the stated dimension. -/
def accept [Space α V] (p : Problem α V M) (x : V) : Except (Fault α) V :=
  (Space.accept x p.dimension).mapError .dimension

def oracle (p : Problem α V M) : Oracle α V M where
  dimension := p.dimension
  hasGradient := p.hasGradient
  hasHessian := p.hasHessian
  value x := Eval.ofExcept (p.value x)
  gradient x := Eval.ofExcept (p.gradient x)
  hessian x := Eval.ofExcept (p.hessian x)

/-- The oracle of a run in dimension `n`: evaluations are counted, also those that fail, and an
answer that does not fit is refused with its extents. -/
def counted [Space α V] [Curved α V M] (p : Problem α V M) (n : Nat) : Oracle α V M where
  dimension := some n
  hasGradient := p.hasGradient
  hasHessian := p.hasHessian
  value x := do
    Eval.countValue
    Eval.ofExcept (p.value x)
  gradient x := do
    Eval.countGradient
    let g ← Eval.ofExcept (p.gradient x)
    if Space.shape g = [n] then return g
    else throw (.dimension (.gradientShape (Space.shape g) n))
  hessian x := do
    Eval.countHessian
    let h ← Eval.ofExcept (p.hessian x)
    if Curved.shape h = [n, n] then return h
    else throw (.dimension (.hessianShape (Curved.shape h) n))

end Problem

namespace Oracle
variable {α V M : Type} [Scalar α] [Space α V] [Curved α V M]

/-- The oracle with the derivatives that it lacks replaced by central differences: of the value
for the gradient, of the gradient for the Hessian, and second differences of the value where
there is no gradient either. -/
def filled (o : Oracle α V M) : Oracle α V M :=
  { o with
    hasGradient := true
    hasHessian := true
    gradient :=
      if o.hasGradient then o.gradient else Difference.gradientAt o.value Difference.defaultStep
    hessian :=
      if o.hasHessian then o.hessian
      else if o.hasGradient then Difference.hessianOfGradientAt o.gradient Difference.defaultStep
      else Difference.hessianAt o.value Difference.defaultSecondStep }

omit [Scalar α] [Space α V] [Curved α V M] in
/-- Everything that is needed is there. -/
def offers (o : Oracle α V M) (needHessian : Bool) : Bool :=
  o.hasGradient && (o.hasHessian || !needHessian)

/-- Fills in derivatives only where a needed one is missing. -/
def differentiable (o : Oracle α V M) (needHessian : Bool) : Oracle α V M :=
  if o.offers needHessian then o else o.filled

end Oracle

namespace Problem
variable {α V M : Type} [Scalar α] [Space α V] [Curved α V M]

/-- What the loop, the strategy and the searches of a run in dimension `n` see of a problem. -/
def work (p : Problem α V M) (n : Nat) (needHessian : Bool) : Oracle α V M :=
  ((p.counted n).differentiable needHessian).recorded

/-- The problem with missing derivatives filled in, as a problem of its own. -/
def filled (p : Problem α V M) (eps secondEps : α) : Problem α V M where
  name := "FiniteDifferenceProblem"
  dimension := p.dimension
  value := p.value
  gradient? := some (p.gradient?.getD (Difference.gradientAt p.value eps))
  hessian? := some <|
    match p.hessian?, p.gradient? with
    | some h, _ => h
    | none, some g => Difference.hessianOfGradientAt g eps
    | none, none => Difference.hessianAt p.value secondEps
  converged := p.converged

/-- Both steps must be positive. -/
def filled? (p : Problem α V M) (eps secondEps : α) : Except (Fault α) (Problem α V M) :=
  if eps ≤ 0 ∨ secondEps ≤ 0 then .error (.setting .differenceSteps)
  else .ok (p.filled eps secondEps)

/-- The problem itself if everything that is needed is there, else with differences filled in. -/
def ensureDifferentiable (p : Problem α V M) (needHessian : Bool) : Problem α V M :=
  if p.hasGradient && (p.hasHessian || !needHessian) then p
  else p.filled Difference.defaultStep Difference.defaultSecondStep

end Problem

namespace Difference
variable {α V M : Type} [Scalar α] [Space α V] [Curved α V M]

omit [Curved α V M] in
def gradient? (f : V → Except (Fault α) α) (eps : α) (x : V) : Except (Fault α) V :=
  if eps ≤ 0 then .error (.setting .differenceStep) else gradientAt f eps x

def hessian? (f : V → Except (Fault α) α) (eps : α) (x : V) : Except (Fault α) M :=
  if eps ≤ 0 then .error (.setting .differenceStep) else hessianAt f eps x

def hessianOfGradient? (g : V → Except (Fault α) V) (eps : α) (x : V) : Except (Fault α) M :=
  if eps ≤ 0 then .error (.setting .differenceStep) else hessianOfGradientAt g eps x

end Difference

end Downhill
