import Downhill.Linear.Euclidean
import Downhill.Problem.Basic

/-! The chained valley function of Rosenbrock: its minimum is at the point of ones, at the end of a
curved and flat valley. It comes with its value alone, or with analytic derivatives. -/
namespace Downhill.Rosenbrock
variable {α : Type} [Scalar α] {n : Nat}

/-- How far entry `i + 1` lies above the valley floor at entry `i`. -/
def height (x : Vector α n) (i : Nat) (h : i + 1 < n) : α := x[i + 1] - x[i] * x[i]

def term (x : Vector α n) (i : Nat) (h : i + 1 < n) : α :=
  let inner := height x i h
  let side := 1.0 - x[i]
  100.0 * (inner * inner) + side * side

def value (x : Vector α n) : α :=
  (Vector.ofFn fun i : Fin (n - 1) => term x i.val (by omega)).sum

/-- An entry belongs to the term that it starts and to the term that it ends. -/
def gradient (x : Vector α n) : Vector α n :=
  Vector.ofFn fun i =>
    let start :=
      if h : i.val + 1 < n then
        -400.0 * x[i] * height x i.val h - 2.0 * (1.0 - x[i])
      else 0
    if h : 0 < i.val then start + 200.0 * height x (i.val - 1) (by omega) else start

def diagonal (x : Vector α n) (i : Fin n) : α :=
  let start := if h : i.val + 1 < n then 1200.0 * (x[i] * x[i]) - 400.0 * x[i.val + 1] + 2.0 else 0
  if 0 < i.val then start + 200.0 else start

def hessian (x : Vector α n) : Matrix α n :=
  Matrix.ofFn fun i j =>
    if i = j then diagonal x i
    else if i.val + 1 = j.val then -400.0 * x.get i
    else if j.val + 1 = i.val then -400.0 * x.get j
    else 0

def bareName : String := "Rosenbrock"

def name : String := "RosenbrockWithDerivatives"

def bare : Problem α (Vector α n) (Matrix α n) where
  name := bareName
  dimension := some n
  value x := .ok (value x)
  gradient? := none
  hessian? := none
  converged := gradientTest

def problem : Problem α (Vector α n) (Matrix α n) :=
  { (bare : Problem α (Vector α n) (Matrix α n)) with
    name
    gradient? := some fun x => .ok (gradient x)
    hessian? := some fun x => .ok (hessian x) }

def checkDimension (dimension : Int) : Except (Fault α) Nat :=
  if dimension < 2 then .error (.setting .valleyDimension) else .ok dimension.toNat

example : value (#v[1.0, 1.0, 1.0] : Vector Float 3) = 0.0 := by decide +kernel

end Downhill.Rosenbrock
