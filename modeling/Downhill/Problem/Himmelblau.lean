import Downhill.Linear.Euclidean
import Downhill.Problem.Basic

/-! The function of Himmelblau in two variables, with four minima of value zero. -/
namespace Downhill.Himmelblau
variable {α : Type} [Scalar α]

def first (x y : α) : α := x * x + y - 11.0

def second (x y : α) : α := x + y * y - 7.0

def value (x y : α) : α := first x y * first x y + second x y * second x y

def gradient (x y : α) : Vector α 2 :=
  #v[4.0 * x * first x y + 2.0 * second x y, 2.0 * first x y + 4.0 * y * second x y]

def name : String := "Himmelblau"

def problem : Problem α (Vector α 2) (Matrix α 2) where
  name
  dimension := some 2
  value x := .ok (value x[0] x[1])
  gradient? := some fun x => .ok (gradient x[0] x[1])
  hessian? := none
  converged := gradientTest

example : value (3.0 : Float) 2.0 = 0.0 := by decide +kernel

end Downhill.Himmelblau
