import Downhill.Ledger

/-! What a search or a strategy sees of a problem: value, gradient and second derivatives at
points `V`. -/
namespace Downhill

structure Oracle (α V M : Type) where
  present : Bool := true
  dimension : Option Int
  hasGradient : Bool
  hasHessian : Bool
  value : V → Eval α V α
  gradient : V → Eval α V V
  hessian : V → Eval α V M

namespace Oracle
variable {α V M : Type}

/-- An oracle without a problem, which has no answers. -/
def absent : Oracle α V M where
  present := false
  dimension := none
  hasGradient := false
  hasHessian := false
  value _ := throw .noSuchPart
  gradient _ := throw .noSuchPart
  hessian _ := throw .noSuchPart

/-- The same answers, with every question entered in the account. -/
def recorded (o : Oracle α V M) : Oracle α V M :=
  { o with
    value := fun x => do Eval.request (.value x); o.value x
    gradient := fun x => do Eval.request (.gradient x); o.gradient x
    hessian := fun x => do Eval.request (.hessian x); o.hessian x }

end Oracle

structure Iterate (α V : Type) where
  point : V
  value : α
  gradient : V
  deriving Repr, DecidableEq

end Downhill
