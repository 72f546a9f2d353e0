import Downhill.Linear.Euclidean
import Downhill.Proofs.Linear.Elimination

/-! The Cholesky factorization in exact arithmetic. Whatever is added to the diagonal, a factor that
is found can be solved with: a factor of numbers is triangular with a positive diagonal, and one
without values is never found to be singular. With true roots a positive definite matrix has a
factor, and its product with the transpose is the matrix. -/
open Matrix

namespace Downhill
variable {K : Type} [ExactField K] {n : ℕ}

open Exact

/-- A triangular matrix with a positive diagonal. -/
structure Triangular (f : SquareMatrix K n) : Prop where
  lower : f.IsLowerTriangular
  pos : ∀ i, 0 < f i i

/-- The matrix with `d` in the corner, `c` below it, zeros beside it and `f` in the rest. -/
def framed (d : K) (c : Fin n → K) (f : SquareMatrix K n) : SquareMatrix K (n + 1) :=
  of (Fin.cons (Fin.cons d 0) fun i => Fin.cons (c i) (f i))

/-- What is left of a matrix when the products of a column are subtracted. -/
def remainder (a : SquareMatrix K (n + 1)) (c : Fin n → K) : SquareMatrix K n :=
  of fun i j => a i.succ j.succ - c i * c j

namespace Triangular
variable {f : SquareMatrix K n} (h : Triangular f)
include h

theorem det_ne_zero : f.det ≠ 0 := by
  rw [det_of_isLowerTriangular f h.lower]
  exact Finset.prod_ne_zero_iff.mpr fun i _ => (h.pos i).ne'

theorem mulVec_eq_zero : ∀ v, f *ᵥ v = 0 → v = 0 :=
  fun _ hv => eq_zero_of_mulVec_eq_zero h.det_ne_zero hv

theorem transpose_mulVec_eq_zero : ∀ v, fᵀ *ᵥ v = 0 → v = 0 :=
  fun _ hv => eq_zero_of_mulVec_eq_zero (by rw [det_transpose]; exact h.det_ne_zero) hv

/-- With a triangular factor both systems are solved. -/
theorem exists_solveFactor (b : Fin n → K) :
    ∃ x, solveFactor (liftMatrix f) (lift b) = .ok (lift x) ∧ (f * fᵀ) *ᵥ x = b := by
  obtain ⟨y, hy, hfy⟩ := exists_eliminate h.mulVec_eq_zero b
  obtain ⟨x, hx, hfx⟩ := exists_eliminate h.transpose_mulVec_eq_zero y
  refine ⟨x, ?_, by rw [← mulVec_mulVec, hfx, hfy]⟩
  have hsolve : (liftMatrix f).solveFactored? (lift b) = some (lift x) := by
    rw [Matrix.solveFactored?, Matrix.solve?, zipWith_lift, hy, Option.bind_some, Matrix.solve?,
      transpose_lift, zipWith_lift, hx]
  rw [solveFactor, hsolve]

omit h in
theorem form_eq (v : Fin n → K) : v ⬝ᵥ (f * fᵀ) *ᵥ v = (fᵀ *ᵥ v) ⬝ᵥ (fᵀ *ᵥ v) := by
  rw [← mulVec_mulVec, dotProduct_mulVec, ← mulVec_transpose]

/-- The product of a factor and its transpose is positive definite. -/
theorem form_pos {v : Fin n → K} (hv : v ≠ 0) : 0 < v ⬝ᵥ (f * fᵀ) *ᵥ v := by
  rw [form_eq]
  exact dotProduct_self_pos (mt (h.transpose_mulVec_eq_zero v) hv)

omit h in
/-- A solution makes an acute angle with its right side. -/
theorem slope_neg {g v : Fin n → K} (hg : g ≠ 0) (hv : (f * fᵀ) *ᵥ v = -g) :
    g ⬝ᵥ v < 0 := by
  have hne : fᵀ *ᵥ v ≠ 0 := by
    intro hzero
    rw [← mulVec_mulVec, hzero, mulVec_zero, zero_eq_neg] at hv
    exact hg hv
  have hself := form_eq (f := f) v
  rw [hv, dotProduct_neg, dotProduct_comm] at hself
  have hpos := dotProduct_self_pos hne
  linarith

omit h in
theorem framed {d : K} {c : Fin n → K} (hd : 0 < d) (h : Triangular f) :
    Triangular (framed d c f) := by
  refine ⟨fun i j hij => ?_, fun i => ?_⟩
  · have hij : i < j := hij
    obtain ⟨j, rfl⟩ := Fin.exists_succ_eq.mpr ((Fin.zero_le i).trans_lt hij).ne'
    cases i using Fin.cases with
    | zero => rfl
    | succ i => exact h.lower (Fin.succ_lt_succ_iff.mp hij)
  · cases i using Fin.cases with
    | zero => exact hd
    | succ i => exact h.pos i

end Triangular

section Numbers
variable (a : SquareMatrix K (n + 1))

theorem bordered_lift (d : K) (c : Fin n → K) (f : SquareMatrix K n) :
    Matrix.bordered (number d) (lift c) (liftMatrix f) = liftMatrix (framed d c f) := by
  ext i hi j hj
  cases i with
  | zero =>
    cases j with
    | zero => simp [Matrix.bordered, framed]
    | succ j =>
      simp only [Matrix.bordered, getElem_front_zero, getElem_front_succ, Vector.getElem_replicate]
      simp [framed]
      rfl
  | succ i =>
    cases j with
    | zero =>
      simp only [Matrix.bordered, getElem_front_succ, Vector.getElem_ofFn, getElem_front_zero]
      simp [framed]
      rfl
    | succ j =>
      simp only [Matrix.bordered, getElem_front_succ, Vector.getElem_ofFn]
      simp [framed]
      rfl

/-- The first column of the factor below its corner `d`. -/
def columnBelow (d : K) : Fin n → K := fun i => vecHead (a i.succ) / d

theorem choleskyColumn_lift {d : K} (hd : d ≠ 0) :
    Matrix.choleskyColumn (liftMatrix a) (number d) = lift (columnBelow a d) := by
  ext i hi
  simp only [Matrix.choleskyColumn, Vector.getElem_ofFn, get_eq_getElem, Fin.getElem_fin,
    getElem_liftMatrix, first_eq, getElem_lift, number_div hd]
  rfl

theorem choleskyRest_lift (c : Fin n → K) :
    Matrix.choleskyRest (liftMatrix a) (lift c) = liftMatrix (remainder a c) := by
  ext i hi j hj
  simp only [Matrix.choleskyRest, Matrix.getElem_ofFn, get_eq_getElem, Fin.getElem_fin,
    getElem_liftMatrix, getElem_lift, number_mul, number_sub]
  rfl

variable [SoundRoot K] {a}

/-- One step of the factorization: a positive corner, and the factor of the remainder. -/
theorem cholesky_succ (h : 0 < a 0 0) :
    let d := ExactField.root (a 0 0)
    let c := columnBelow a d
    Matrix.cholesky? (liftMatrix a) =
      (Matrix.cholesky? (liftMatrix (remainder a c))).map
        (Matrix.bordered (number d) (lift c)) := by
  intro d c
  have hcorner : first (first (liftMatrix a)) = number (a 0 0) := by simp
  have hpos : ¬ number (a 0 0) ≤ (0 : Exact K) := h.not_ge
  have hd : d ≠ 0 := (SoundRoot.root_pos _ h).ne'
  simp only [Matrix.cholesky?, hcorner, if_neg hpos, sqrt_number h.le, ← choleskyRest_lift, c]
  rw [choleskyColumn_lift a hd]

omit [SoundRoot K] in
theorem cholesky_of_not_pos (h : ¬ 0 < a 0 0) : Matrix.cholesky? (liftMatrix a) = none := by
  have hcorner : first (first (liftMatrix a)) = number (a 0 0) := by simp
  have hle : number (a 0 0) ≤ (0 : Exact K) := not_lt.mp h
  simp only [Matrix.cholesky?, hcorner, if_pos hle]

end Numbers

/-- A factor of a matrix of numbers is one of numbers, triangular with a positive diagonal. -/
theorem exists_triangular [SoundRoot K] {a : SquareMatrix K n} {l : Matrix (Exact K) n}
    (h : Matrix.cholesky? (liftMatrix a) = some l) : ∃ f, l = liftMatrix f ∧ Triangular f := by
  induction n with
  | zero => exact ⟨0, Vector.ext fun i hi => by omega, fun i => i.elim0, fun i => i.elim0⟩
  | succ n ih =>
    by_cases hpos : 0 < a 0 0
    · rw [cholesky_succ hpos, Option.map_eq_some_iff] at h
      obtain ⟨l', hl', rfl⟩ := h
      obtain ⟨f, rfl, hf⟩ := ih hl'
      exact ⟨_, bordered_lift _ _ _, hf.framed (SoundRoot.root_pos _ hpos)⟩
    · rw [cholesky_of_not_pos hpos] at h
      cases h

section Definite
variable {a : SquareMatrix K (n + 1)}

theorem corner_pos (ha : ∀ v, v ≠ 0 → 0 < v ⬝ᵥ a *ᵥ v) (i : Fin (n + 1)) : 0 < a i i := by
  have h := ha (Pi.single i 1) (by simp)
  simpa using h

/-- The form of the remainder at `v` is that of the matrix at an extension of `v`. -/
theorem remainder_pos {d : K} (hd : 0 < d) (hcorner : d * d = a 0 0) (hsymm : a.IsSymm)
    (ha : ∀ v, v ≠ 0 → 0 < v ⬝ᵥ a *ᵥ v) :
    ∀ v, v ≠ 0 → 0 < v ⬝ᵥ remainder a (columnBelow a d) *ᵥ v := by
  intro v hv
  let c := columnBelow a d
  let w : Fin (n + 1) → K := Fin.cons (-(c ⬝ᵥ v) / d) v
  have hw : w ≠ 0 := fun h => hv (funext fun i => congrFun h i.succ)
  have hcolumn : ∀ i, a i.succ 0 = d * c i := fun i => (mul_div_cancel₀ _ hd.ne').symm
  have hrow : ∀ i, a 0 i.succ = d * c i := fun i => (hsymm.apply i.succ 0).trans (hcolumn i)
  have hlead : d * (-(c ⬝ᵥ v) / d) = -(c ⬝ᵥ v) := mul_div_cancel₀ _ hd.ne'
  have hmul : a *ᵥ w = Fin.cons 0 (remainder a c *ᵥ v) := by
    funext i
    cases i using Fin.cases with
    | zero =>
      calc (a *ᵥ w) 0 = d * (d * (-(c ⬝ᵥ v) / d)) + d * (c ⬝ᵥ v) := by
            simp only [mulVec, dotProduct, Fin.sum_univ_succ, w, Fin.cons_zero, Fin.cons_succ,
              hrow, ← hcorner, Finset.mul_sum, mul_assoc]
        _ = 0 := by rw [hlead]; ring
    | succ i =>
      calc (a *ᵥ w) i.succ
          = c i * (d * (-(c ⬝ᵥ v) / d)) + ∑ j, a i.succ j.succ * v j := by
            simp only [mulVec, dotProduct, Fin.sum_univ_succ, w, Fin.cons_zero, Fin.cons_succ,
              hcolumn]
            ring
        _ = (remainder a c *ᵥ v) i := by
            rw [hlead]
            simp only [mulVec, dotProduct, remainder, of_apply, sub_mul, mul_assoc,
              Finset.sum_sub_distrib, ← Finset.mul_sum]
            ring
  have hform : w ⬝ᵥ a *ᵥ w = v ⬝ᵥ remainder a c *ᵥ v := by
    rw [hmul]
    simp [dotProduct, Fin.sum_univ_succ, w]
  rw [← hform]
  exact ha w hw

theorem isSymm_remainder (hsymm : a.IsSymm) (c : Fin n → K) : (remainder a c).IsSymm := by
  refine IsSymm.ext fun i j => ?_
  rw [remainder, of_apply, of_apply, hsymm.apply, mul_comm (c i)]

theorem framed_mul_transpose {d : K} (hd : d ≠ 0) (hcorner : d * d = a 0 0) (hsymm : a.IsSymm)
    {f : SquareMatrix K n} (hf : f * fᵀ = remainder a (columnBelow a d)) :
    framed d (columnBelow a d) f * (framed d (columnBelow a d) f)ᵀ = a := by
  have hcolumn : ∀ i, columnBelow a d i * d = a i.succ 0 := fun i => div_mul_cancel₀ _ hd
  ext i j
  have hprod : ∀ i j, (f * fᵀ) i j = ∑ k, f i k * f j k := fun i j => by
    simp [mul_apply]
  cases i using Fin.cases with
  | zero =>
    cases j using Fin.cases with
    | zero => simpa [mul_apply, Fin.sum_univ_succ, framed] using hcorner
    | succ j =>
      have hj := (mul_comm _ _).trans (hcolumn j)
      simpa [mul_apply, Fin.sum_univ_succ, framed, ← hsymm.apply j.succ 0] using hj
  | succ i =>
    cases j using Fin.cases with
    | zero => simpa [mul_apply, Fin.sum_univ_succ, framed] using hcolumn i
    | succ j =>
      have hij := hprod i j
      rw [hf, remainder, of_apply] at hij
      simp [mul_apply, Fin.sum_univ_succ, framed, ← hij]

end Definite

/-- A factor of a symmetric matrix has the matrix as its product with the transpose. -/
theorem exists_factor_of_cholesky [TrueRoot K] {a : SquareMatrix K n} (hsymm : a.IsSymm)
    {l : Matrix (Exact K) n} (h : Matrix.cholesky? (liftMatrix a) = some l) :
    ∃ f, l = liftMatrix f ∧ Triangular f ∧ f * fᵀ = a := by
  induction n with
  | zero =>
    exact ⟨0, Vector.ext fun i hi => by omega, ⟨fun i => i.elim0, fun i => i.elim0⟩,
      ext fun i => i.elim0⟩
  | succ n ih =>
    by_cases hpos : 0 < a 0 0
    · rw [cholesky_succ hpos, Option.map_eq_some_iff] at h
      obtain ⟨l', hl', rfl⟩ := h
      obtain ⟨f, rfl, hf, hprod⟩ := ih (isSymm_remainder hsymm _) hl'
      have hd := SoundRoot.root_pos _ hpos
      exact ⟨_, bordered_lift _ _ _, hf.framed hd,
        framed_mul_transpose hd.ne' (TrueRoot.root_mul_root _ hpos.le) hsymm hprod⟩
    · rw [cholesky_of_not_pos hpos] at h
      cases h

/-- A symmetric matrix with a positive form is the product of its factor and the transpose. -/
theorem exists_cholesky [TrueRoot K] {a : SquareMatrix K n} (hsymm : a.IsSymm)
    (ha : ∀ v, v ≠ 0 → 0 < v ⬝ᵥ a *ᵥ v) :
    ∃ f, Matrix.cholesky? (liftMatrix a) = some (liftMatrix f) ∧ Triangular f ∧ f * fᵀ = a := by
  induction n with
  | zero =>
    refine ⟨0, ?_, ⟨fun i => i.elim0, fun i => i.elim0⟩, ext fun i => i.elim0⟩
    exact congrArg some (Vector.ext fun i hi => by omega)
  | succ n ih =>
    have hpos := corner_pos ha 0
    have hd := SoundRoot.root_pos _ hpos
    have hcorner := TrueRoot.root_mul_root _ hpos.le
    obtain ⟨f, hf, htri, hprod⟩ := ih (isSymm_remainder hsymm _)
      (remainder_pos hd hcorner hsymm ha)
    refine ⟨framed _ _ f, ?_, htri.framed hd, framed_mul_transpose hd.ne' hcorner hsymm hprod⟩
    rw [cholesky_succ hpos, hf, Option.map_some, bordered_lift]

end Downhill
