import Downhill.Proofs.Exact.Matrix

/-! Rigid changes of coordinates. A rotation and a shift of the origin take points to points; values
change by an offset and gradients turn with the points. Scalar products of turned vectors stay what
they were, which is all that a method without second derivatives sees of its coordinates. -/
open Matrix

namespace Downhill
variable {K : Type} [ExactField K] {n : ℕ}

open Exact

/-- The change of coordinates `x ↦ Qᵀ (x - v)` with values that are higher by `c`, for an orthogonal
matrix `Q`. -/
structure RigidMotion (K : Type) [ExactField K] (n : ℕ) where
  rotation : SquareMatrix K n
  orthogonal : rotationᵀ * rotation = 1
  center : Fin n → K
  offset : K

namespace RigidMotion
variable (m : RigidMotion K n)

section Field

/-- A direction in the new coordinates. -/
def turn (d : Fin n → K) : Fin n → K := m.rotationᵀ *ᵥ d

/-- A point in the new coordinates. -/
def point (x : Fin n → K) : Fin n → K := m.turn (x - m.center)

/-- The point that has these new coordinates. -/
def back (z : Fin n → K) : Fin n → K := m.rotation *ᵥ z + m.center

/-- A function of points in the new coordinates. -/
def value (f : (Fin n → K) → K) : (Fin n → K) → K := fun z => f (m.back z) + m.offset

def gradient (g : (Fin n → K) → Fin n → K) : (Fin n → K) → Fin n → K :=
  fun z => m.turn (g (m.back z))

def hessian (h : (Fin n → K) → SquareMatrix K n) : (Fin n → K) → SquareMatrix K n :=
  fun z => m.rotationᵀ * h (m.back z) * m.rotation

variable (d e x y : Fin n → K)

theorem turn_add : m.turn (d + e) = m.turn d + m.turn e := mulVec_add _ d e

theorem turn_sub : m.turn (d - e) = m.turn d - m.turn e := mulVec_sub _ d e

theorem turn_neg : m.turn (-d) = -m.turn d := mulVec_neg d _

theorem turn_smul (t : K) : m.turn (t • d) = t • m.turn d := mulVec_smul _ t d

theorem mul_transpose : m.rotation * m.rotationᵀ = 1 := mul_eq_one_comm.mp m.orthogonal

theorem rotation_mulVec_turn : m.rotation *ᵥ m.turn d = d := by
  rw [turn, mulVec_mulVec, m.mul_transpose, one_mulVec]

@[simp] theorem turn_dotProduct : m.turn d ⬝ᵥ m.turn e = d ⬝ᵥ e := by
  rw [turn, mulVec_transpose, ← dotProduct_mulVec, rotation_mulVec_turn]

theorem turn_injective : Function.Injective m.turn := fun d e h => by
  rw [← m.rotation_mulVec_turn d, h, rotation_mulVec_turn]

@[simp] theorem back_point : m.back (m.point x) = x := by
  rw [back, point, rotation_mulVec_turn, sub_add_cancel]

theorem point_sub_point : m.point x - m.point y = m.turn (x - y) := by
  rw [point, point, ← turn_sub, sub_sub_sub_cancel_right]

theorem point_add : m.point (x + d) = m.point x + m.turn d := by
  rw [point, point, ← turn_add, sub_add_eq_add_sub]

end Field

section Values

/-- A vector of scalars in the new coordinates. -/
def turned (v : Vector (Exact K) n) : Vector (Exact K) n := (liftMatrix m.rotationᵀ).apply v

/-- A point of scalars in the new coordinates. -/
def image (v : Vector (Exact K) n) : Vector (Exact K) n := m.turned (v - lift m.center)

@[simp] theorem turned_lift (d : Fin n → K) : m.turned (lift d) = lift (m.turn d) :=
  apply_lift _ d

@[simp] theorem image_lift (x : Fin n → K) : m.image (lift x) = lift (m.point x) := by
  rw [image, lift_sub, turned_lift, point]

end Values

end RigidMotion

/-! Affine changes of coordinates. With an invertible matrix and another origin points go to points;
directions go with them, gradients go the other way, and the scalar product of a gradient and a
direction stays what it was. A rigid motion is one where both go the same way. -/

/-- The change of coordinates `x ↦ T⁻¹ (x - v)` with values that are higher by `c`, for an
invertible matrix `T`. -/
structure AffineChange (K : Type) [ExactField K] (n : ℕ) where
  matrix : SquareMatrix K n
  inverse : SquareMatrix K n
  inverse_mul : inverse * matrix = 1
  center : Fin n → K
  offset : K

namespace AffineChange
variable (m : AffineChange K n)

section Field

/-- A direction in the new coordinates. -/
def push (d : Fin n → K) : Fin n → K := m.inverse *ᵥ d

/-- A gradient in the new coordinates. -/
def pull (w : Fin n → K) : Fin n → K := m.matrixᵀ *ᵥ w

/-- A point in the new coordinates. -/
def point (x : Fin n → K) : Fin n → K := m.push (x - m.center)

/-- The point that has these new coordinates. -/
def back (z : Fin n → K) : Fin n → K := m.matrix *ᵥ z + m.center

/-- A function of points in the new coordinates. -/
def value (f : (Fin n → K) → K) : (Fin n → K) → K := fun z => f (m.back z) + m.offset

def gradient (g : (Fin n → K) → Fin n → K) : (Fin n → K) → Fin n → K :=
  fun z => m.pull (g (m.back z))

def hessian (h : (Fin n → K) → SquareMatrix K n) : (Fin n → K) → SquareMatrix K n :=
  fun z => m.matrixᵀ * h (m.back z) * m.matrix

variable (d w x : Fin n → K)

theorem push_add (e : Fin n → K) : m.push (d + e) = m.push d + m.push e := mulVec_add _ d e

theorem push_smul (t : K) : m.push (t • d) = t • m.push d := mulVec_smul _ t d

theorem pull_add (u : Fin n → K) : m.pull (w + u) = m.pull w + m.pull u := mulVec_add _ w u

theorem pull_neg : m.pull (-w) = -m.pull w := mulVec_neg w _

theorem matrix_mul : m.matrix * m.inverse = 1 := mul_eq_one_comm.mp m.inverse_mul

theorem matrix_mulVec_push : m.matrix *ᵥ m.push d = d := by
  rw [push, mulVec_mulVec, m.matrix_mul, one_mulVec]

theorem pull_dotProduct (z : Fin n → K) : m.pull w ⬝ᵥ z = w ⬝ᵥ m.matrix *ᵥ z := by
  rw [pull, mulVec_transpose, ← dotProduct_mulVec]

@[simp] theorem pull_dotProduct_push : m.pull w ⬝ᵥ m.push d = w ⬝ᵥ d := by
  rw [pull_dotProduct, matrix_mulVec_push]

@[simp] theorem back_point : m.back (m.point x) = x := by
  rw [back, point, matrix_mulVec_push, sub_add_cancel]

variable (f : (Fin n → K) → K) (g : (Fin n → K) → Fin n → K) (h : (Fin n → K) → SquareMatrix K n)

@[simp] theorem value_point : m.value f (m.point x) = f x + m.offset := by
  rw [value, back_point]

@[simp] theorem gradient_point : m.gradient g (m.point x) = m.pull (g x) := by
  rw [gradient, back_point]

@[simp] theorem hessian_point : m.hessian h (m.point x) = m.matrixᵀ * h x * m.matrix := by
  rw [hessian, back_point]

theorem point_add : m.point (x + d) = m.point x + m.push d := by
  rw [point, point, ← push_add, sub_add_eq_add_sub]

end Field

section Values

/-- A direction of scalars in the new coordinates. -/
def pushed (v : Vector (Exact K) n) : Vector (Exact K) n := (liftMatrix m.inverse).apply v

/-- A gradient of scalars in the new coordinates. -/
def pulled (v : Vector (Exact K) n) : Vector (Exact K) n := (liftMatrix m.matrixᵀ).apply v

/-- A point of scalars in the new coordinates. -/
def image (v : Vector (Exact K) n) : Vector (Exact K) n := m.pushed (v - lift m.center)

@[simp] theorem pushed_lift (d : Fin n → K) : m.pushed (lift d) = lift (m.push d) :=
  apply_lift _ d

@[simp] theorem pulled_lift (w : Fin n → K) : m.pulled (lift w) = lift (m.pull w) :=
  apply_lift _ w

@[simp] theorem image_lift (x : Fin n → K) : m.image (lift x) = lift (m.point x) := by
  rw [image, lift_sub, pushed_lift, point]

end Values

end AffineChange

/-- A rotation is its own inverse transposed. -/
def RigidMotion.affine (m : RigidMotion K n) : AffineChange K n :=
  ⟨m.rotation, m.rotationᵀ, m.orthogonal, m.center, m.offset⟩

end Downhill
