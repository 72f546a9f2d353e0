import Downhill.Proofs.Linear.Congruent

/-! The sequence of shifts. A factorization is tried with one shift after another; it is found with
the first that makes the matrix positive definite, and nothing is found where none of them does. -/
open Matrix

namespace Downhill
variable {K : Type} [ExactField K] {n : ℕ}

open Exact

/-- The quadratic form is positive away from zero. -/
abbrev PositiveForm (a : SquareMatrix K n) : Prop := ∀ v, v ≠ 0 → 0 < v ⬝ᵥ a *ᵥ v

/-- The smallest entry on the diagonal. -/
def smallestDiagonal (a : SquareMatrix K (n + 1)) : K :=
  Finset.univ.inf' Finset.univ_nonempty fun i => a i i

/-- The shifts in the order in which they are tried, where `least` is the smallest entry on the
diagonal. -/
def shiftAt (beta growth least : K) : ℕ → K
  | 0 => if 0 < least then 0 else beta - least
  | k + 1 => max (growth * shiftAt beta growth least k) beta

theorem lt_smallestDiagonal_iff (a : SquareMatrix K (n + 1)) (z : K) :
    z < smallestDiagonal a ↔ ∀ i, z < a i i := by
  simp [smallestDiagonal, Finset.lt_inf'_iff]

/-- An equation with a positive definite matrix has one solution at most. -/
theorem PositiveForm.eq_of_mulVec_eq {a : SquareMatrix K n} (ha : PositiveForm a) {d e : Fin n → K}
    (h : a *ᵥ d = a *ᵥ e) : d = e := by
  by_contra hne
  have hform := ha (d - e) (sub_ne_zero.mpr hne)
  rw [mulVec_sub, h, sub_self, dotProduct_zero] at hform
  exact absurd hform (lt_irrefl 0)

section Sequence
variable {beta growth least : K}

theorem firstShift_number :
    Matrix.firstShift (number beta) (number least) = number (shiftAt beta growth least 0) := by
  rw [Matrix.firstShift, shiftAt]
  split_ifs with h h' h'
  · rfl
  · exact absurd (number_lt.mp h) h'
  · exact absurd (number_lt.mpr h') h
  · exact number_sub

theorem nextShift_number (k : ℕ) :
    Matrix.nextShift (number beta) (number growth) (number (shiftAt beta growth least k)) =
      number (shiftAt beta growth least (k + 1)) := by
  rw [Matrix.nextShift, number_mul, larger_number, shiftAt]

end Sequence

section Attempts
variable {α : Type} [Scalar α] {m l : Matrix α n} {beta growth : α} {u : ℕ → α}
  (hu : ∀ k, u (k + 1) = Matrix.nextShift beta growth (u k))
include hu

/-- The first shift with a factor is the one that is used. -/
theorem tryShifts_of_first {attempts k : ℕ} (i : ℕ) (hk : k < attempts)
    (hnone : ∀ j < k, (m.shift (u (i + j))).cholesky? = none)
    (hsome : (m.shift (u (i + k))).cholesky? = some l) :
    m.tryShifts beta growth attempts (u i) = some (l, u (i + k)) := by
  induction attempts generalizing i k with
  | zero => exact absurd hk (Nat.not_lt_zero k)
  | succ attempts ih =>
    rw [Matrix.tryShifts]
    cases k with
    | zero =>
      rw [show (m.shift (u i)).cholesky? = some l from hsome]
      rfl
    | succ k =>
      rw [show (m.shift (u i)).cholesky? = none from hnone 0 k.succ_pos, ← hu]
      have hshift : ∀ j, i + (j + 1) = i + 1 + j := fun j => by omega
      rw [hshift k] at hsome ⊢
      refine ih (i + 1) (Nat.lt_of_succ_lt_succ hk) (fun j hj => ?_) hsome
      rw [← hshift j]
      exact hnone (j + 1) (Nat.succ_lt_succ hj)

theorem tryShifts_of_none (attempts i : ℕ)
    (hnone : ∀ j < attempts, (m.shift (u (i + j))).cholesky? = none) :
    m.tryShifts beta growth attempts (u i) = none := by
  induction attempts generalizing i with
  | zero => rfl
  | succ attempts ih =>
    rw [Matrix.tryShifts, show (m.shift (u i)).cholesky? = none from hnone 0 attempts.succ_pos,
      ← hu]
    refine ih (i + 1) fun j hj => ?_
    rw [show i + 1 + j = i + (j + 1) by omega]
    exact hnone (j + 1) (Nat.succ_lt_succ hj)

end Attempts

theorem leastDiagonal_lift (a : SquareMatrix K (n + 1)) :
    (liftMatrix a).leastDiagonal = number (smallestDiagonal a) := by
  obtain ⟨x, hleast, hx⟩ := exists_leastDiagonal a
  rw [hleast, eq_of_forall_lt_iff fun z => (hx z).trans (lt_smallestDiagonal_iff a z).symm]

/-- The factorization of a matrix of numbers tries the shifts of the sequence. -/
theorem choleskyWithShift_lift (a : SquareMatrix K (n + 1)) (beta growth : K) (attempts : ℤ) :
    (liftMatrix a).choleskyWithShift (number beta) (number growth) attempts =
      ((liftMatrix a).tryShifts (number beta) (number growth) attempts.toNat
        (number (shiftAt beta growth (smallestDiagonal a) 0))).elim
          (.error (.notPositiveDefinite attempts)) .ok := by
  have hfirst : Matrix.firstShift (number beta) (liftMatrix a).leastDiagonal =
      number (shiftAt beta growth (smallestDiagonal a) 0) := by
    rw [leastDiagonal_lift, firstShift_number]
  rw [Matrix.choleskyWithShift, Matrix.factorShifted, hfirst]
  cases (liftMatrix a).tryShifts (number beta) (number growth) attempts.toNat
    (number (shiftAt beta growth (smallestDiagonal a) 0)) <;> rfl

section Factors
variable [TrueRoot K] {a : SquareMatrix K (n + 1)} (ha : a.IsSymm) (beta growth : K)
include ha

omit [TrueRoot K] in
theorem isSymm_add_smul_one (t : K) : (a + t • 1).IsSymm := ha.add (isSymm_one.smul t)

theorem cholesky_shift_eq_none {t : K} (h : ¬ PositiveForm (a + t • 1)) :
    ((liftMatrix a).shift (number t)).cholesky? = none := by
  rw [shift_lift, Option.eq_none_iff_forall_ne_some]
  exact fun l hl => h ((exists_cholesky_iff (isSymm_add_smul_one ha t)).mp ⟨l, hl⟩)

/-- The factorization succeeds with the first shift that makes the matrix positive definite. -/
theorem choleskyWithShift_of_first {attempts : ℤ} {k : ℕ} (hk : k < attempts.toNat)
    (hfirst : ∀ j < k, ¬ PositiveForm (a + shiftAt beta growth (smallestDiagonal a) j • 1))
    (hpos : PositiveForm (a + shiftAt beta growth (smallestDiagonal a) k • 1)) :
    ∃ f, (liftMatrix a).choleskyWithShift (number beta) (number growth) attempts =
        .ok (liftMatrix f, number (shiftAt beta growth (smallestDiagonal a) k)) ∧
      Triangular f ∧ f * fᵀ = a + shiftAt beta growth (smallestDiagonal a) k • 1 := by
  obtain ⟨f, hf, htri, hprod⟩ := exists_cholesky (isSymm_add_smul_one ha _) hpos
  refine ⟨f, ?_, htri, hprod⟩
  let u : ℕ → Exact K := fun k => number (shiftAt beta growth (smallestDiagonal a) k)
  have hfound : (liftMatrix a).tryShifts (number beta) (number growth) attempts.toNat (u 0) =
      some (liftMatrix f, u (0 + k)) := by
    refine tryShifts_of_first (fun k => (nextShift_number k).symm) 0 hk (fun j hj => ?_) ?_
    · rw [Nat.zero_add]
      exact cholesky_shift_eq_none ha (hfirst j hj)
    · rw [Nat.zero_add, shift_lift, hf]
  rw [choleskyWithShift_lift, hfound, Nat.zero_add]
  rfl

theorem choleskyWithShift_of_none (attempts : ℤ)
    (hnone : ∀ k < attempts.toNat,
      ¬ PositiveForm (a + shiftAt beta growth (smallestDiagonal a) k • 1)) :
    (liftMatrix a).choleskyWithShift (number beta) (number growth) attempts =
      .error (.notPositiveDefinite attempts) := by
  let u : ℕ → Exact K := fun k => number (shiftAt beta growth (smallestDiagonal a) k)
  have hlost : (liftMatrix a).tryShifts (number beta) (number growth) attempts.toNat (u 0) =
      none := by
    refine tryShifts_of_none (fun k => (nextShift_number k).symm) _ 0 fun j hj => ?_
    rw [Nat.zero_add]
    exact cholesky_shift_eq_none ha (hnone j hj)
  rw [choleskyWithShift_lift, hlost]
  rfl

end Factors

end Downhill
