import Downhill.Problem.Quadratic
import Downhill.Proofs.Exact.Root

/-! Matrices of exact values. A matrix of numbers is one of the field, with the same operations, and
a quadratic objective of numbers has the values and the gradients of the field. -/
open Matrix

/-- Square matrices over a field, with the operations of linear algebra. -/
abbrev SquareMatrix (K : Type) (n : ℕ) : Type := Matrix (Fin n) (Fin n) K

namespace Downhill
variable {K : Type} [ExactField K] {n : ℕ}

section SymmetricPart
variable (a : SquareMatrix K n)

/-- The symmetric part of a matrix. -/
def symmetricPart : SquareMatrix K n := (1 / (2 : ℕ) : K) • (a + aᵀ)

theorem isSymm_symmetricPart : (symmetricPart a).IsSymm :=
  (isSymm_add_transpose_self a).smul _

theorem symmetricPart_of_isSymm {a : SquareMatrix K n} (h : a.IsSymm) : symmetricPart a = a := by
  rw [symmetricPart, h.eq, ← two_smul K, smul_smul, Nat.cast_ofNat,
    one_div_mul_cancel two_ne_zero, one_smul]

theorem dotProduct_mulVec_comm_of_isSymm {a : SquareMatrix K n} (h : a.IsSymm) (u v : Fin n → K) :
    u ⬝ᵥ a *ᵥ v = v ⬝ᵥ a *ᵥ u := by
  rw [dotProduct_mulVec, ← mulVec_transpose, h.eq, dotProduct_comm]

end SymmetricPart

namespace Exact

/-- A matrix of the field. -/
def liftMatrix (a : SquareMatrix K n) : Matrix (Exact K) n := Vector.ofFn fun i => lift (a i)

variable (a : SquareMatrix K n)

omit [ExactField K] in
@[simp] theorem getElem_liftMatrix (i : ℕ) (h : i < n) : (liftMatrix a)[i] = lift (a ⟨i, h⟩) := by
  simp [liftMatrix]

theorem half_eq : (0.5 : K) = 1 / 2 := by norm_num

@[simp] theorem apply_lift (x : Fin n → K) : (liftMatrix a).apply (lift x) = lift (a *ᵥ x) := by
  ext i hi
  simp [mulVec]

omit [ExactField K] in
@[simp] theorem transpose_lift : Matrix.transpose (liftMatrix a) = liftMatrix aᵀ := by
  ext i hi j hj
  simp

@[simp] theorem symmetrize_lift :
    Matrix.symmetrize (liftMatrix a) = liftMatrix (symmetricPart a) := by
  ext i hi j hj
  simp [symmetricPart, half_eq, mul_add]

@[simp] theorem shift_lift (t : K) :
    Matrix.shift (liftMatrix a) (number t) = liftMatrix (a + t • 1) := by
  ext i hi j hj
  by_cases h : i = j <;> simp [h]

@[simp] theorem allFinite_liftMatrix : Matrix.allFinite (liftMatrix a) = true := by
  simp [Matrix.allFinite]

theorem exists_liftMatrix {m : Matrix (Exact K) n} (h : m.allFinite = true) :
    ∃ a, m = liftMatrix a := by
  simp only [Matrix.allFinite, Vector.all_eq_true] at h
  choose a ha using fun i : Fin n => exists_lift (h i i.isLt)
  exact ⟨of a, Vector.ext fun i hi => (ha ⟨i, hi⟩).trans (getElem_liftMatrix (of a) i hi).symm⟩

end Exact

namespace Quadratic
open Exact

variable (a : SquareMatrix K n) (b x : Fin n → K)

@[simp] theorem gradient_lift :
    (⟨liftMatrix a, lift b⟩ : Quadratic (Exact K) n).gradient (lift x) = lift (a *ᵥ x - b) := by
  simp [gradient]

@[simp] theorem value_lift :
    (⟨liftMatrix a, lift b⟩ : Quadratic (Exact K) n).value (lift x) =
      number (1 / 2 * (x ⬝ᵥ a *ᵥ x) - b ⬝ᵥ x) := by
  simp [value, half_eq, mulVec_smul, dotProduct_comm x]

/-- A quadratic function around a point. -/
theorem value_around {a : SquareMatrix K n} (h : a.IsSymm) (b x v : Fin n → K) :
    1 / 2 * ((x + v) ⬝ᵥ a *ᵥ (x + v)) - b ⬝ᵥ (x + v) =
      1 / 2 * (x ⬝ᵥ a *ᵥ x) - b ⬝ᵥ x + (a *ᵥ x - b) ⬝ᵥ v + 1 / 2 * (v ⬝ᵥ a *ᵥ v) := by
  have hcomm : v ⬝ᵥ a *ᵥ x = x ⬝ᵥ a *ᵥ v := dotProduct_mulVec_comm_of_isSymm h v x
  have hslope : (a *ᵥ x - b) ⬝ᵥ v = x ⬝ᵥ a *ᵥ v - b ⬝ᵥ v := by
    rw [sub_dotProduct, dotProduct_comm, hcomm]
  rw [hslope, mulVec_add, add_dotProduct, dotProduct_add, dotProduct_add, dotProduct_add, hcomm]
  ring

end Quadratic

end Downhill
