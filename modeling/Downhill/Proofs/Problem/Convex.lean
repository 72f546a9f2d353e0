import Downhill.Proofs.Exact.Matrix

/-! Strictly convex quadratic functions `x ↦ ½ xᵀAx - bᵀx` of the field, and the exact minimizer
along a line. -/
open Matrix

namespace Downhill
variable {K : Type} [ExactField K] {n : ℕ}

open Exact

/-- A symmetric matrix with a positive quadratic form, and a linear term. -/
structure ConvexQuadratic (K : Type) [ExactField K] (n : ℕ) where
  matrix : SquareMatrix K n
  linear : Fin n → K
  symm : matrix.IsSymm
  pos : ∀ v, v ≠ 0 → 0 < v ⬝ᵥ matrix *ᵥ v

namespace ConvexQuadratic
variable (q : ConvexQuadratic K n) (u v x d : Fin n → K) (t : K)

/-- The function in exact arithmetic. -/
def objective : Quadratic (Exact K) n := ⟨liftMatrix q.matrix, lift q.linear⟩

def gradient : Fin n → K := q.matrix *ᵥ x - q.linear

/-- The length of the step from `x` that minimizes the function along `d`. -/
def exactStep : K := -(q.gradient x ⬝ᵥ d) / (d ⬝ᵥ q.matrix *ᵥ d)

@[simp] theorem gradient_objective : q.objective.gradient (lift x) = lift (q.gradient x) :=
  Quadratic.gradient_lift q.matrix q.linear x

@[simp] theorem apply_objective :
    q.objective.matrix.apply (lift d) = lift (q.matrix *ᵥ d) :=
  apply_lift q.matrix d

theorem dotProduct_mulVec_comm : u ⬝ᵥ q.matrix *ᵥ v = v ⬝ᵥ q.matrix *ᵥ u :=
  dotProduct_mulVec_comm_of_isSymm q.symm u v

theorem gradient_add_smul :
    q.gradient (x + t • d) = q.gradient x + t • q.matrix *ᵥ d := by
  rw [gradient, mulVec_add, mulVec_smul, gradient]
  abel

variable {d}

/-- After the exact step nothing is left of the slope. -/
theorem gradient_exactStep (hd : d ≠ 0) :
    q.gradient (x + q.exactStep x d • d) ⬝ᵥ d = 0 := by
  have hcurve := (q.pos d hd).ne'
  rw [gradient_add_smul, add_dotProduct, smul_dotProduct, dotProduct_comm (q.matrix *ᵥ d),
    smul_eq_mul, exactStep, div_mul_cancel₀ _ hcurve]
  ring

/-- No two vectors have the same image, so the function has one point without slope. -/
theorem mulVec_injective : Function.Injective q.matrix.mulVec := by
  intro u v huv
  by_contra hne
  have hpos := q.pos (u - v) (sub_ne_zero.mpr hne)
  rw [mulVec_sub, show q.matrix *ᵥ u = q.matrix *ᵥ v from huv, sub_self, dotProduct_zero] at hpos
  exact hpos.false

noncomputable def minimizer : Fin n → K := q.matrix⁻¹ *ᵥ q.linear

@[simp] theorem mulVec_minimizer : q.matrix *ᵥ q.minimizer = q.linear := by
  have hunit : IsUnit q.matrix.det :=
    (isUnit_iff_isUnit_det _).mp (mulVec_injective_iff_isUnit.mp q.mulVec_injective)
  rw [minimizer, mulVec_mulVec, mul_nonsing_inv _ hunit, one_mulVec]

@[simp] theorem gradient_minimizer : q.gradient q.minimizer = 0 := by
  rw [gradient, mulVec_minimizer, sub_self]

end ConvexQuadratic

/-- The quadratic function of a matrix whose symmetric part is positive definite. -/
def ConvexQuadratic.ofMatrix (a : SquareMatrix K n) (b : Fin n → K)
    (ha : ∀ v, v ≠ 0 → 0 < v ⬝ᵥ symmetricPart a *ᵥ v) : ConvexQuadratic K n :=
  ⟨symmetricPart a, b, isSymm_symmetricPart a, ha⟩

theorem ConvexQuadratic.objective_ofMatrix (a : SquareMatrix K n) (b : Fin n → K)
    (ha : ∀ v, v ≠ 0 → 0 < v ⬝ᵥ symmetricPart a *ᵥ v) :
    (ofMatrix a b ha).objective = Quadratic.ofMatrix (liftMatrix a) (lift b) := by
  rw [Quadratic.ofMatrix, symmetrize_lift]
  rfl

end Downhill
