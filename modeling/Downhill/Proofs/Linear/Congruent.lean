import Downhill.Proofs.Linear.Shifted

/-! Factorizations of congruent matrices. For an orthogonal `q` the matrices `a` and `qᵀ a q` are
positive definite together, with every shift; so the same shifts are tried for both, and the
solutions with their factors are images of each other. The shift that is tried first depends on the
diagonal, which is the same up to order where `q` is a permutation matrix. -/
open Matrix

namespace Downhill
variable {K : Type} [ExactField K] {n : ℕ}

open Exact

section Forms
variable {q a : SquareMatrix K n}

theorem isSymm_congruent (ha : a.IsSymm) : (qᵀ * a * q).IsSymm := by
  rw [Matrix.IsSymm, transpose_mul, transpose_mul, transpose_transpose, ha.eq, Matrix.mul_assoc]

theorem symmetricPart_congruent : symmetricPart (qᵀ * a * q) = qᵀ * symmetricPart a * q := by
  rw [symmetricPart, symmetricPart, transpose_mul, transpose_mul, transpose_transpose,
    Matrix.mul_smul, Matrix.smul_mul, Matrix.mul_add, Matrix.add_mul, Matrix.mul_assoc qᵀ aᵀ]

variable (hq : qᵀ * q = 1)
include hq

theorem congruent_add_smul (t : K) : qᵀ * a * q + t • 1 = qᵀ * (a + t • 1) * q := by
  rw [Matrix.mul_add, Matrix.add_mul, Matrix.mul_smul, Matrix.mul_one, Matrix.smul_mul, hq]

theorem congruent_mulVec (v : Fin n → K) : (qᵀ * a * q) *ᵥ (qᵀ *ᵥ v) = qᵀ *ᵥ a *ᵥ v := by
  simp only [mulVec_mulVec, Matrix.mul_assoc, mul_eq_one_comm.mp hq, Matrix.mul_one]

/-- The two forms are positive together. -/
theorem form_pos_congruent_iff : (∀ v, v ≠ 0 → 0 < v ⬝ᵥ (qᵀ * a * q) *ᵥ v) ↔
    ∀ v, v ≠ 0 → 0 < v ⬝ᵥ a *ᵥ v := by
  have hback : ∀ v, q *ᵥ qᵀ *ᵥ v = v := fun v => by
    rw [mulVec_mulVec, mul_eq_one_comm.mp hq, one_mulVec]
  have hform : ∀ v, (qᵀ *ᵥ v) ⬝ᵥ (qᵀ * a * q) *ᵥ (qᵀ *ᵥ v) = v ⬝ᵥ a *ᵥ v := fun v => by
    rw [congruent_mulVec hq, mulVec_transpose, ← dotProduct_mulVec, hback]
  refine ⟨fun h v hv => ?_, fun h v hv => ?_⟩
  · rw [← hform]
    refine h _ fun hzero => hv ?_
    rw [← hback v, hzero, mulVec_zero]
  · have hv' : qᵀ *ᵥ q *ᵥ v = v := by rw [mulVec_mulVec, hq, one_mulVec]
    rw [← hv', hform]
    refine h _ fun hzero => hv ?_
    rw [← hv', hzero, mulVec_zero]

end Forms

section Shifts
variable [TrueRoot K] {q a : SquareMatrix K n} {beta growth tau : Exact K}

theorem exists_cholesky_iff (ha : a.IsSymm) : (∃ l, Matrix.cholesky? (liftMatrix a) = some l) ↔
    ∀ v, v ≠ 0 → 0 < v ⬝ᵥ a *ᵥ v := by
  refine ⟨fun ⟨l, hl⟩ v hv => ?_, fun h => ?_⟩
  · obtain ⟨f, -, hf, hprod⟩ := exists_factor_of_cholesky ha hl
    rw [← hprod]
    exact hf.form_pos hv
  · obtain ⟨f, hf, -⟩ := exists_cholesky ha h
    exact ⟨_, hf⟩

/-- A shift leads to factors of both matrices, or of none. -/
theorem exists_cholesky_congruent_iff (hq : qᵀ * q = 1) (ha : a.IsSymm) (htau : ¬ tau < 0) :
    (∃ l, ((liftMatrix (qᵀ * a * q)).shift tau).cholesky? = some l) ↔
      ∃ l, ((liftMatrix a).shift tau).cholesky? = some l := by
  cases hfin : Scalar.isFinite tau with
  | true =>
    obtain ⟨t, rfl⟩ := isFinite_iff.mp hfin
    have hsymm : (a + t • 1).IsSymm := ha.add (isSymm_one.smul t)
    rw [shift_lift, shift_lift, congruent_add_smul hq, exists_cholesky_iff hsymm,
      exists_cholesky_iff (isSymm_congruent hsymm), form_pos_congruent_iff hq]
  | false =>
    exact iff_of_true (exists_cholesky_of_shift _ hfin htau) (exists_cholesky_of_shift _ hfin htau)

omit [TrueRoot K] in
theorem not_neg_scaled {x : K} (hx : 0 ≤ x) : ¬ scaled false x < 0 := by
  unfold scaled
  split_ifs
  · exact id
  · rw [decide_eq_false hx.not_gt]
    exact fun h => by cases h

omit [TrueRoot K] in
theorem not_neg_mul {x y : Exact K} (hx : ¬ x ≤ 1) (hy : ¬ y < 0) : ¬ x * y < 0 := by
  have hup : ∀ s, ¬ (infinity s : Exact K) < 0 → s = false := fun s hs => Bool.eq_false_iff.mpr hs
  have hup' : ∀ s, ¬ (infinity s : Exact K) ≤ 1 → s = false := fun s hs => Bool.eq_false_iff.mpr hs
  have hpos : ∀ z, ¬ number z ≤ (1 : Exact K) → 0 ≤ z := fun z hz =>
    zero_le_one.trans (not_le.mp hz).le
  cases x with
  | undefined => exact id
  | number x =>
    cases y with
    | undefined => exact id
    | number y => exact (mul_nonneg (hpos x hx) (not_lt.mp hy)).not_gt
    | infinity s =>
      rw [hup s hy]
      exact not_neg_scaled (hpos x hx)
  | infinity s =>
    rw [hup' s hx]
    cases y with
    | undefined => exact id
    | number y => exact not_neg_scaled (not_lt.mp hy)
    | infinity t =>
      rw [hup t hy]
      exact fun h => by cases h

omit [TrueRoot K] in
theorem not_neg_of_not_le (hbeta : ¬ beta ≤ 0) : ¬ beta < 0 := by
  cases beta with
  | number b => exact fun h => hbeta (number_le.mpr (number_lt.mp h).le)
  | undefined => exact id
  | infinity s => exact hbeta

omit [TrueRoot K] in
/-- Shifts never become negative. -/
theorem not_neg_nextShift (hbeta : ¬ beta ≤ 0) (hgrowth : ¬ growth ≤ 1) (htau : ¬ tau < 0) :
    ¬ Matrix.nextShift beta growth tau < 0 := by
  unfold Matrix.nextShift Scalar.larger
  split_ifs
  · exact not_neg_of_not_le hbeta
  · exact not_neg_mul hgrowth htau

omit [TrueRoot K] in
theorem not_neg_firstShift (hbeta : ¬ beta ≤ 0) (least : K) :
    ¬ Matrix.firstShift beta (number least) < 0 := by
  unfold Matrix.firstShift
  split_ifs with hleast
  · exact Exact.lt_irrefl 0
  · cases beta with
    | undefined => exact id
    | infinity s => exact hbeta
    | number b =>
      have hb : 0 < b := not_le.mp hbeta
      have hleast : least ≤ 0 := not_lt.mp hleast
      rw [number_sub]
      exact (sub_nonneg.mpr (hleast.trans hb.le)).not_gt

/-- For both matrices the same shifts are tried. -/
theorem tryShifts_congruent (hq : qᵀ * q = 1) (ha : a.IsSymm) (hbeta : ¬ beta ≤ 0)
    (hgrowth : ¬ growth ≤ 1) (attempts : ℕ) (htau : ¬ tau < 0) :
    ((liftMatrix a).tryShifts beta growth attempts tau = none ∧
      (liftMatrix (qᵀ * a * q)).tryShifts beta growth attempts tau = none) ∨
    ∃ l l' used, (liftMatrix a).tryShifts beta growth attempts tau = some (l, used) ∧
      (liftMatrix (qᵀ * a * q)).tryShifts beta growth attempts tau = some (l', used) := by
  induction attempts generalizing tau with
  | zero => exact .inl ⟨rfl, rfl⟩
  | succ attempts ih =>
    have hiff := exists_cholesky_congruent_iff hq ha htau
    simp only [Matrix.tryShifts]
    cases hl : ((liftMatrix a).shift tau).cholesky? with
    | some l =>
      obtain ⟨l', hl'⟩ := hiff.mpr ⟨l, hl⟩
      rw [hl']
      exact .inr ⟨l, l', tau, rfl, rfl⟩
    | none =>
      have hl' : ((liftMatrix (qᵀ * a * q)).shift tau).cholesky? = none := by
        rw [Option.eq_none_iff_forall_ne_some]
        intro l' hl'
        obtain ⟨l, hl''⟩ := hiff.mp ⟨l', hl'⟩
        rw [hl] at hl''
        cases hl''
      rw [hl']
      exact ih (not_neg_nextShift hbeta hgrowth htau)

/-- Solutions with two factors for one shift: a vector and its image, or two that are not finite. -/
theorem exists_solutions_congruent (hq : qᵀ * q = 1) (hone : n ≤ 1 → q = 1) (ha : a.IsSymm)
    {l l' : Matrix (Exact K) n} (hl : ((liftMatrix a).shift tau).cholesky? = some l)
    (hl' : ((liftMatrix (qᵀ * a * q)).shift tau).cholesky? = some l') (b : Fin n → K) :
    ∃ x x', solveFactor l (lift b) = .ok x ∧ solveFactor l' (lift (qᵀ *ᵥ b)) = .ok x' ∧
      ((∃ d, x = lift d ∧ x' = lift (qᵀ *ᵥ d)) ∨ allFinite x = false ∧ allFinite x' = false) := by
  cases hfin : Scalar.isFinite tau with
  | true =>
    obtain ⟨t, rfl⟩ := isFinite_iff.mp hfin
    have hsymm : (a + t • 1).IsSymm := ha.add (isSymm_one.smul t)
    rw [shift_lift] at hl hl'
    rw [congruent_add_smul hq] at hl'
    obtain ⟨f, rfl, hf, hprod⟩ := exists_factor_of_cholesky hsymm hl
    obtain ⟨f', rfl, hf', hprod'⟩ := exists_factor_of_cholesky (isSymm_congruent hsymm) hl'
    obtain ⟨x, hx, hsolves⟩ := hf.exists_solveFactor b
    obtain ⟨x', hx', hsolves'⟩ := hf'.exists_solveFactor (qᵀ *ᵥ b)
    refine ⟨_, _, hx, hx', .inl ⟨x, rfl, congrArg lift ?_⟩⟩
    -- Both solve the second system, which has one solution.
    have hzero : (f' * f'ᵀ) *ᵥ (x' - qᵀ *ᵥ x) = 0 := by
      rw [mulVec_sub, hsolves', hprod', congruent_mulVec hq, ← hprod, hsolves, sub_self]
    by_contra hne
    have hpos := hf'.form_pos (sub_ne_zero.mpr hne)
    rw [hzero, dotProduct_zero] at hpos
    exact hpos.false
  | false =>
    obtain ⟨x, hx, -, hinfinite⟩ := exists_solveFactor_of_cholesky hl b
    obtain ⟨x', hx', -, hinfinite'⟩ := exists_solveFactor_of_cholesky hl' (qᵀ *ᵥ b)
    refine ⟨x, x', hx, hx', ?_⟩
    by_cases hn : 1 < n
    · exact .inr ⟨hinfinite hfin hn, hinfinite' hfin hn⟩
    · obtain rfl := hone (not_lt.mp hn)
      rw [transpose_one, Matrix.one_mul, Matrix.mul_one, hl] at hl'
      cases hl'
      rw [transpose_one, one_mulVec, hx] at hx'
      cases hx'
      cases hall : allFinite x with
      | true =>
        obtain ⟨d, rfl⟩ := exists_lift hall
        exact .inl ⟨d, rfl, by rw [transpose_one, one_mulVec]⟩
      | false => exact .inr ⟨rfl, rfl⟩

/-- With the same entries on the diagonal, in some order, the two matrices get factors for one
shift, or neither gets one. -/
theorem choleskyWithShift_congruent (hn : 0 < n) (hq : qᵀ * q = 1) (ha : a.IsSymm)
    (hdiagonal : ∃ e : Equiv.Perm (Fin n), ∀ i, (qᵀ * a * q) i i = a (e i) (e i))
    (hbeta : ¬ beta ≤ 0) (hgrowth : ¬ growth ≤ 1) (attempts : ℤ) :
    ((liftMatrix a).choleskyWithShift beta growth attempts =
        .error (.notPositiveDefinite attempts) ∧
      (liftMatrix (qᵀ * a * q)).choleskyWithShift beta growth attempts =
        .error (.notPositiveDefinite attempts)) ∨
    ∃ l l' tau, (liftMatrix a).choleskyWithShift beta growth attempts = .ok (l, tau) ∧
      (liftMatrix (qᵀ * a * q)).choleskyWithShift beta growth attempts = .ok (l', tau) ∧
      ((liftMatrix a).shift tau).cholesky? = some l ∧
      ((liftMatrix (qᵀ * a * q)).shift tau).cholesky? = some l' := by
  cases n with
  | zero => exact absurd hn (Nat.lt_irrefl 0)
  | succ n =>
    obtain ⟨e, he⟩ := hdiagonal
    obtain ⟨x, hx, hleast⟩ := exists_leastDiagonal a
    obtain ⟨x', hx', hleast'⟩ := exists_leastDiagonal (qᵀ * a * q)
    obtain rfl : x' = x := by
      refine eq_of_forall_lt_iff fun z => ?_
      rw [hleast, hleast']
      simp only [he]
      exact e.forall_congr_right (q := fun i => z < a i i)
    simp only [Matrix.choleskyWithShift, Matrix.factorShifted, hx, hx']
    obtain ⟨h, h'⟩ | ⟨l, l', tau, h, h'⟩ := tryShifts_congruent hq ha hbeta hgrowth attempts.toNat
      (not_neg_firstShift hbeta x')
    · rw [h, h']
      exact .inl ⟨rfl, rfl⟩
    · rw [h, h']
      exact .inr ⟨l, l', tau, rfl, rfl, cholesky_of_tryShifts h, cholesky_of_tryShifts h'⟩

end Shifts

end Downhill
