import Downhill.Proofs.Exact.Matrix

/-! The spectrum of random quadratics. The matrix is a conjugate of a diagonal matrix by the
orthogonal factor, whose columns are therefore its eigenvectors. In the coordinates that these
columns give, the quadratic form is a sum of squares that are weighted by the eigenvalues. -/
open Matrix

namespace Downhill
variable {K : Type} [ExactField K] {n : ℕ}

open Exact

namespace Quadratic

section Levels

/-- Eigenvalue `k` of `n` that are evenly spaced from one to `c`; a single one is one. -/
def level (n : ℕ) (c : K) (k : ℕ) : K := if n = 1 then 1 else 1 + (c - 1) * (k / (n - 1))

variable {c : K} (hc : 1 ≤ c) (k : Fin n)

include hc

theorem one_le_level : 1 ≤ level n c k := by
  rw [level]
  split_ifs with h
  · exact le_rfl
  · have hn : (1 : K) ≤ n := by exact_mod_cast k.pos
    have hshare : (0 : K) ≤ k / (n - 1) := div_nonneg (Nat.cast_nonneg _) (sub_nonneg.mpr hn)
    exact le_add_of_nonneg_right (mul_nonneg (sub_nonneg.mpr hc) hshare)

theorem level_le : level n c k ≤ c := by
  rw [level]
  split_ifs with h
  · exact hc
  · have hk : ((k : ℕ) : K) + 1 ≤ n := by exact_mod_cast k.isLt
    have hpos := k.pos
    have hn : (1 : K) < n := by exact_mod_cast (show 1 < n by omega)
    have hshare : (k : K) / (n - 1) ≤ 1 := by
      rw [div_le_one (sub_pos.mpr hn)]
      exact le_sub_iff_add_le.mpr hk
    calc 1 + (c - 1) * (k / (n - 1)) ≤ 1 + (c - 1) * 1 :=
          add_le_add_right (mul_le_mul_of_nonneg_left hshare (sub_nonneg.mpr hc)) 1
      _ = c := by ring

end Levels

/-- The last eigenvalue is the condition number, and all follow one formula. -/
theorem eigenvalue_eq (c : K) (k : Fin n) : eigenvalue n (number c) k = number (level n c k) := by
  rw [eigenvalue, level]
  split_ifs with hone hlast
  · simp
  · have hn : (n : K) - 1 ≠ 0 := sub_ne_zero.mpr (by exact_mod_cast hone)
    have hk : ((k : ℕ) : K) = n - 1 := eq_sub_of_add_eq (by exact_mod_cast hlast)
    rw [hk, div_self hn, mul_one, add_sub_cancel]
  · have hn : (n : K) - 1 ≠ 0 := sub_ne_zero.mpr (by exact_mod_cast hone)
    have hcast : ((n - 1 : ℕ) : Exact K) = number ((n : K) - 1) := by
      change number (((n - 1 : ℕ)) : K) = _
      rw [Nat.cast_pred k.pos]
    have hnat : ((k : ℕ) : Exact K) = number (k : K) := rfl
    rw [hcast, hnat, one_eq, number_sub, number_div hn, number_mul, number_add]
    congr 1
    ring

theorem spectrum_eq (n : ℕ) (c : K) : spectrum n (number c) = lift fun k => level n c k := by
  ext i hi
  simp only [spectrum, Vector.getElem_ofFn, getElem_lift]
  exact eigenvalue_eq c ⟨i, hi⟩

/-- The conjugate of a diagonal matrix by the columns of `q`. -/
def conjugate (q : SquareMatrix K n) (l : Fin n → K) : SquareMatrix K n := q * diagonal l * qᵀ

section Conjugate
variable (q : SquareMatrix K n) (l : Fin n → K)

/-- The columns are scaled by the eigenvalues and multiplied with the rows of the factor. -/
theorem assemble_lift : assemble (liftMatrix q) (lift l) = liftMatrix (conjugate q l) := by
  have hrow : ∀ i : Fin n, Vector.zipWith (· * ·) (lift (q i)) (lift l) =
      lift fun k => q i k * l k := by
    intro i
    ext k hk
    simp
  ext i hi j hj
  simp only [assemble, Matrix.getElem_ofFn, get_eq_getElem, Fin.getElem_fin, getElem_liftMatrix,
    hrow, dot_lift, getElem_lift]
  rw [conjugate, Matrix.mul_apply]
  simp only [mul_diagonal, transpose_apply, dotProduct]

theorem isSymm_conjugate : (conjugate q l).IsSymm := by
  simp only [Matrix.IsSymm, conjugate, transpose_mul, transpose_transpose, diagonal_transpose,
    Matrix.mul_assoc]

/-- A sign enters twice and cancels. -/
theorem conjugate_signs {signs : Fin n → K} (hsigns : ∀ j, signs j = 1 ∨ signs j = -1) :
    conjugate (q * diagonal signs) l = conjugate q l := by
  have hcancel : diagonal signs * diagonal l * diagonal signs = diagonal l := by
    rw [diagonal_mul_diagonal, diagonal_mul_diagonal]
    congr 1
    funext j
    rcases hsigns j with h | h <;> rw [h] <;> ring
  calc q * diagonal signs * diagonal l * (q * diagonal signs)ᵀ
      = q * (diagonal signs * diagonal l * diagonal signs) * qᵀ := by
        simp only [transpose_mul, diagonal_transpose, Matrix.mul_assoc]
    _ = q * diagonal l * qᵀ := by rw [hcancel]

theorem dotProduct_conjugate_mulVec (x : Fin n → K) :
    x ⬝ᵥ conjugate q l *ᵥ x = ∑ k, l k * (qᵀ *ᵥ x) k ^ 2 := by
  rw [conjugate, ← mulVec_mulVec, ← mulVec_mulVec, dotProduct_mulVec, ← mulVec_transpose]
  refine Finset.sum_congr rfl fun k _ => ?_
  rw [mulVec_diagonal]
  ring

end Conjugate

section Orthogonal
variable {q : SquareMatrix K n} (hq : qᵀ * q = 1)
include hq

theorem conjugate_mulVec_column (l : Fin n → K) (j : Fin n) :
    conjugate q l *ᵥ q.col j = l j • q.col j := by
  have hcolumn : q.col j = q *ᵥ Pi.single j 1 := (mulVec_single_one q j).symm
  have hscaled : diagonal l *ᵥ Pi.single j 1 = l j • Pi.single j (1 : K) := by
    rw [diagonal_mulVec_single, mul_one, ← Pi.single_smul', smul_eq_mul, mul_one]
  rw [hcolumn, conjugate, ← mulVec_mulVec, ← mulVec_mulVec, mulVec_mulVec _ qᵀ, hq, one_mulVec,
    hscaled, mulVec_smul]

/-- The columns preserve lengths. -/
theorem dotProduct_self_eq_sum (x : Fin n → K) : x ⬝ᵥ x = ∑ k, (qᵀ *ᵥ x) k ^ 2 := by
  have hcomplete : q * qᵀ = 1 := mul_eq_one_comm.mp hq
  have hlength : (qᵀ *ᵥ x) ⬝ᵥ (qᵀ *ᵥ x) = x ⬝ᵥ x := by
    rw [dotProduct_mulVec, ← mulVec_transpose, transpose_transpose, mulVec_mulVec, hcomplete,
      one_mulVec]
  rw [← hlength]
  exact Finset.sum_congr rfl fun k _ => (sq _).symm

end Orthogonal

/-- The matrix of a random quadratic is symmetric, and its quadratic form lies between one and `c`
times the square of the length. The columns of the orthogonal factor are eigenvectors with evenly
spaced eigenvalues, and no matter what signs the columns have, the matrix is the same. -/
theorem random_spectrum (normals : Matrix (Exact K) n) (b : Vector (Exact K) n) {c : K}
    (hc : 1 ≤ c) {q : SquareMatrix K n} (hfactor : normals.orthogonalFactor = liftMatrix q)
    (hq : qᵀ * q = 1) :
    ∃ a : SquareMatrix K n, (random normals b (number c)).matrix = liftMatrix a ∧ a.IsSymm ∧
      (∀ x, x ⬝ᵥ x ≤ x ⬝ᵥ a *ᵥ x ∧ x ⬝ᵥ a *ᵥ x ≤ c * (x ⬝ᵥ x)) ∧
      (∀ j : Fin n, a *ᵥ q.col j =
        (if n = 1 then 1 else 1 + (c - 1) * ((j : ℕ) / (n - 1)) : K) • q.col j) ∧
      ∀ signs : Fin n → K, (∀ j, signs j = 1 ∨ signs j = -1) →
        (ofOrthogonal (liftMatrix (q * diagonal signs)) b (number c)).matrix = liftMatrix a := by
  have hmatrix : ∀ p : SquareMatrix K n, (ofOrthogonal (liftMatrix p) b (number c)).matrix =
      liftMatrix (conjugate p fun k => level n c k) := by
    intro p
    rw [ofOrthogonal, ofMatrix, spectrum_eq, assemble_lift, symmetrize_lift,
      symmetricPart_of_isSymm (isSymm_conjugate p _)]
  refine ⟨conjugate q fun k => level n c k, ?_, isSymm_conjugate q _, fun x => ?_,
    conjugate_mulVec_column hq _, fun signs hsigns => ?_⟩
  · rw [random, hfactor, hmatrix]
  · rw [dotProduct_conjugate_mulVec, dotProduct_self_eq_sum hq, Finset.mul_sum]
    constructor
    · exact Finset.sum_le_sum fun k _ =>
        le_mul_of_one_le_left (sq_nonneg _) (one_le_level hc k)
    · exact Finset.sum_le_sum fun k _ =>
        mul_le_mul_of_nonneg_right (level_le hc k) (sq_nonneg _)
  · rw [hmatrix, conjugate_signs q _ hsigns]

/-- Three columns of rational numbers whose lengths are rational, for the eigenvalues 1, 4 and 7;
the second column of the factor may be turned round. -/
theorem random_spectrum_three :
    let normals : Matrix (Exact ℚ) 3 := #v[#v[1, -14, 0], #v[2, 2, 0], #v[2, 5, 1]]
    let q : SquareMatrix ℚ 3 :=
      !![-1/3, 14/15, 2/15; -2/3, -2/15, -11/15; -2/3, -1/3, 2/3]
    normals.orthogonalFactor = liftMatrix q ∧ qᵀ * q = 1 ∧
    ∃ a : SquareMatrix ℚ 3, (random normals #v[0, 0, 0] 7).matrix = liftMatrix a ∧
      (∀ x, x ⬝ᵥ x ≤ x ⬝ᵥ a *ᵥ x ∧ x ⬝ᵥ a *ᵥ x ≤ 7 * (x ⬝ᵥ x)) ∧
      a *ᵥ q.col 1 = (4 : ℚ) • q.col 1 ∧
      (ofOrthogonal (liftMatrix (q * diagonal ![1, -1, 1])) #v[0, 0, 0] 7).matrix =
        liftMatrix a := by
  intro normals q
  have hfactor : normals.orthogonalFactor = liftMatrix q := by decide +kernel
  have hq : qᵀ * q = 1 := by decide +kernel
  obtain ⟨a, ha, -, hform, hcolumns, hsigns⟩ :=
    random_spectrum normals #v[0, 0, 0] (c := 7) (by norm_num) hfactor hq
  refine ⟨hfactor, hq, a, ha, hform, ?_, hsigns _ (by decide +kernel)⟩
  rw [hcolumns 1]
  norm_num

end Quadratic

end Downhill
