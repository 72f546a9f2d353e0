import Downhill.Linear.Euclidean
import Downhill.Linear.Orthogonal
import Downhill.Problem.Basic
import Downhill.Tensor.Basic

/-! Quadratic objectives `x ↦ ½ xᵀAx - bᵀx` with a symmetric matrix, given or drawn at random with
a known spectrum. -/
namespace Downhill

structure Quadratic (α : Type) (n : Nat) where
  matrix : Matrix α n
  linear : Vector α n

namespace Quadratic
variable {α : Type} [Scalar α] {n : Nat}

/-- Only the symmetric part of a matrix enters. -/
def ofMatrix (a : Matrix α n) (b : Vector α n) : Quadratic α n := ⟨a.symmetrize, b⟩

def value (q : Quadratic α n) (x : Vector α n) : α :=
  dot (q.matrix.apply ((0.5 : α) * x)) x - dot q.linear x

def gradient (q : Quadratic α n) (x : Vector α n) : Vector α n := q.matrix.apply x - q.linear

def solution (q : Quadratic α n) : Except (Fault α) (Vector α n) :=
  match q.matrix.solve? q.linear with
  | some x => .ok x
  | none => .error .singular

def name : String := "QuadraticProblem"

def problem (q : Quadratic α n) : Problem α (Vector α n) (Matrix α n) where
  name
  dimension := some n
  value x := .ok (q.value x)
  gradient? := some fun x => .ok (q.gradient x)
  hessian? := some fun _ => .ok q.matrix
  converged := gradientTest

/-- The quadratic of a square array and a right-hand side that fits it. -/
def ofTensors (a b : Tensor α) : Except (Fault α) ((n : Nat) × Quadratic α n) :=
  match a.shape with
  | [n, k] =>
    if n ≠ k then .error (.setting (.notSquare a.shape))
    else
      match b.vector? n, a.matrix? n with
      | some b, some a => .ok ⟨n, ofMatrix a b⟩
      | _, _ => .error (.setting (.rightHandSide n b.shape))
  | shape => .error (.setting (.notSquare shape))

/-- Evenly spaced eigenvalues from one to the condition number. A single one does not reach beyond
the start. -/
def eigenvalue (n : Nat) (condition : α) (k : Nat) : α :=
  if n = 1 then 0 * (condition - 1) + 1
  else if k + 1 = n then condition
  else (k : α) * ((condition - 1) / ((n - 1 : Nat) : α)) + 1

/-- The matrix with the columns of `q` as eigenvectors, for the eigenvalues `spectrum`. -/
def assemble (q : Matrix α n) (spectrum : Vector α n) : Matrix α n :=
  Matrix.ofFn fun i j => dot (Vector.zipWith (· * ·) (q.get i) spectrum) (q.get j)

def spectrum (n : Nat) (condition : α) : Vector α n := Vector.ofFn fun k => eigenvalue n condition k

/-- The quadratic with eigenvectors from an orthogonal matrix. -/
def ofOrthogonal (q : Matrix α n) (b : Vector α n) (condition : α) : Quadratic α n :=
  ofMatrix (assemble q (spectrum n condition)) b

/-- A quadratic from normal draws: the orthogonal factor of the first gives the eigenvectors, the
second is the linear term. -/
def random (normals : Matrix α n) (b : Vector α n) (condition : α) : Quadratic α n :=
  ofOrthogonal normals.orthogonalFactor b condition

def defaultCondition : α := 10.0

end Quadratic

end Downhill
