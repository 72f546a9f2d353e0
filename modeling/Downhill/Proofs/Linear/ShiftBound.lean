import Downhill.Proofs.Linear.ShiftSequence

/-! How far the shifts go. They grow strictly, from the second on at least as fast as the powers of
the growth, and every shift beyond one that makes the matrix positive definite does so as well. So a
sufficient shift bounds the one that is used, and it bounds the number of attempts. -/
open Matrix

namespace Downhill
variable {K : Type} [ExactField K] {n : ℕ}

open Exact

section Definiteness

/-- A larger shift keeps the form positive. -/
theorem PositiveForm.of_le {a : SquareMatrix K n} {s t : K} (h : PositiveForm (a + s • 1))
    (hst : s ≤ t) : PositiveForm (a + t • 1) := by
  intro v hv
  have hsplit : v ⬝ᵥ (a + t • 1) *ᵥ v = v ⬝ᵥ (a + s • 1) *ᵥ v + (t - s) * (v ⬝ᵥ v) := by
    simp only [add_mulVec, smul_mulVec, one_mulVec, dotProduct_add, dotProduct_smul, smul_eq_mul]
    ring
  have hextra : 0 ≤ (t - s) * (v ⬝ᵥ v) :=
    mul_nonneg (sub_nonneg.mpr hst) (dotProduct_self_nonneg v)
  rw [hsplit]
  exact add_pos_of_pos_of_nonneg (h v hv) hextra

/-- A shift that leaves the form without a sign is below every sufficient one. -/
theorem PositiveForm.lt_of_not {a : SquareMatrix K n} {s mu : K} (h : PositiveForm (a + mu • 1))
    (hs : ¬ PositiveForm (a + s • 1)) : s < mu :=
  not_le.mp fun hle => hs (h.of_le hle)

/-- A sufficient shift lifts the diagonal above zero. -/
theorem PositiveForm.neg_lt_smallestDiagonal {a : SquareMatrix K (n + 1)} {mu : K}
    (h : PositiveForm (a + mu • 1)) : -mu < smallestDiagonal a := by
  rw [lt_smallestDiagonal_iff]
  intro i
  have hentry : 0 < a i i + mu := by
    simpa using h (Pi.single i 1) (by simp)
  exact neg_lt_iff_pos_add.mpr hentry

end Definiteness

section Growth
variable {beta growth : K} (least : K) (hbeta : 0 < beta) (hgrowth : 1 < growth)

section First
include hbeta

theorem shiftAt_zero_nonneg : 0 ≤ shiftAt beta growth least 0 := by
  rw [shiftAt]
  split_ifs with h
  · exact le_rfl
  · exact sub_nonneg.mpr ((not_lt.mp h).trans hbeta.le)

theorem shiftAt_nonneg (k : ℕ) : 0 ≤ shiftAt beta growth least k := by
  cases k with
  | zero => exact shiftAt_zero_nonneg least hbeta
  | succ k => exact hbeta.le.trans (le_max_right _ _)

end First

include hbeta hgrowth

theorem shiftAt_lt_succ (k : ℕ) :
    shiftAt beta growth least k < shiftAt beta growth least (k + 1) := by
  rw [shiftAt]
  rcases (shiftAt_nonneg least hbeta k).eq_or_lt with hzero | hpos
  · rw [← hzero]
    exact lt_max_of_lt_right hbeta
  · exact lt_max_of_lt_left (lt_mul_of_one_lt_left hpos hgrowth)

theorem strictMono_shiftAt : StrictMono (shiftAt beta growth least) :=
  strictMono_nat_of_lt_succ (shiftAt_lt_succ least hbeta hgrowth)

omit hbeta in
/-- From the second shift on the shifts grow at least geometrically. -/
theorem mul_pow_le_shiftAt (k : ℕ) : beta * growth ^ k ≤ shiftAt beta growth least (k + 1) := by
  induction k with
  | zero => simp [shiftAt]
  | succ k ih =>
    calc beta * growth ^ (k + 1) = growth * (beta * growth ^ k) := by ring
      _ ≤ growth * shiftAt beta growth least (k + 1) :=
        mul_le_mul_of_nonneg_left ih (zero_le_one.trans hgrowth.le)
      _ ≤ shiftAt beta growth least (k + 2) := le_max_left _ _

end Growth

/-- A shift that comes first, or after one that did not suffice, exceeds a sufficient shift by no
more than one step of growth. -/
theorem shiftAt_le_of_previous {a : SquareMatrix K (n + 1)} {beta growth mu : K} (hbeta : 0 < beta)
    (hgrowth : 1 < growth) (hmu : 0 ≤ mu) (hpos : PositiveForm (a + mu • 1)) {k : ℕ}
    (hfailed : ∀ j < k, ¬ PositiveForm (a + shiftAt beta growth (smallestDiagonal a) j • 1)) :
    shiftAt beta growth (smallestDiagonal a) k ≤ max (growth * mu) (beta + mu) := by
  have hgap : beta ≤ beta + mu := le_add_of_nonneg_right hmu
  cases k with
  | zero =>
    have hleast := hpos.neg_lt_smallestDiagonal
    apply le_max_of_le_right
    rw [shiftAt]
    split_ifs
    · exact hbeta.le.trans hgap
    · linarith
  | succ k =>
    have hbelow := hpos.lt_of_not (hfailed k (Nat.lt_succ_self k))
    rw [shiftAt]
    apply max_le_max _ hgap
    exact mul_le_mul_of_nonneg_left hbelow.le (zero_le_one.trans hgrowth.le)

section Attempts
variable {α : Type} [Scalar α] {m l : Matrix α n} {beta growth used : α} {u : ℕ → α}
  (hu : ∀ k, u (k + 1) = Matrix.nextShift beta growth (u k))
include hu

/-- The shift that is used is one of those that are tried, and none before it has a factor. -/
theorem exists_of_tryShifts {attempts : ℕ} (i : ℕ)
    (h : m.tryShifts beta growth attempts (u i) = some (l, used)) :
    ∃ k < attempts, used = u (i + k) ∧ (m.shift used).cholesky? = some l ∧
      ∀ j < k, (m.shift (u (i + j))).cholesky? = none := by
  induction attempts generalizing i with
  | zero => cases h
  | succ attempts ih =>
    rw [Matrix.tryShifts] at h
    cases hfactor : (m.shift (u i)).cholesky? with
    | some l' =>
      rw [hfactor] at h
      cases h
      exact ⟨0, attempts.succ_pos, rfl, hfactor, fun j hj => absurd hj (Nat.not_lt_zero j)⟩
    | none =>
      rw [hfactor, ← hu] at h
      obtain ⟨k, hk, hused, hfound, hnone⟩ := ih (i + 1) h
      refine ⟨k + 1, Nat.succ_lt_succ hk, by rw [hused, Nat.add_right_comm, Nat.add_assoc],
        hfound, fun j hj => ?_⟩
      cases j with
      | zero => exact hfactor
      | succ j =>
        rw [← Nat.add_assoc, Nat.add_right_comm]
        exact hnone j (Nat.lt_of_succ_lt_succ hj)

end Attempts

/-- The shifts that a factorization tries, one after the other. -/
def shiftTried {α : Type} [Scalar α] (m : Matrix α (n + 1)) (beta growth : α) : ℕ → α :=
  fun k => (Matrix.nextShift beta growth)^[k] (Matrix.firstShift beta m.leastDiagonal)

theorem shiftTried_lift (a : SquareMatrix K (n + 1)) (beta growth : K) (k : ℕ) :
    shiftTried (liftMatrix a) (number beta) (number growth) k =
      number (shiftAt beta growth (smallestDiagonal a) k) := by
  induction k with
  | zero => rw [shiftTried, Function.iterate_zero_apply, leastDiagonal_lift, firstShift_number]
  | succ k ih =>
    rw [shiftTried, Function.iterate_succ_apply', ← nextShift_number, ← ih, shiftTried]

/-- The factorization uses one of the shifts that it tries. -/
theorem exists_of_choleskyWithShift {α : Type} [Scalar α] {m l : Matrix α (n + 1)}
    {beta growth tau : α} {attempts : ℤ}
    (h : m.choleskyWithShift beta growth attempts = .ok (l, tau)) :
    ∃ k < attempts.toNat, tau = shiftTried m beta growth k ∧ (m.shift tau).cholesky? = some l ∧
      ∀ j < k, (m.shift (shiftTried m beta growth j)).cholesky? = none := by
  rw [Matrix.choleskyWithShift, Matrix.factorShifted] at h
  cases hfound : m.tryShifts beta growth attempts.toNat
    (Matrix.firstShift beta m.leastDiagonal) with
  | none =>
    rw [hfound] at h
    cases h
  | some found =>
    rw [hfound] at h
    obtain rfl : found = (l, tau) := Except.ok.inj h
    have hnext : ∀ k, shiftTried m beta growth (k + 1) =
        Matrix.nextShift beta growth (shiftTried m beta growth k) := by
      intro k
      rw [shiftTried, Function.iterate_succ_apply', shiftTried]
    simpa only [Nat.zero_add] using exists_of_tryShifts hnext 0 hfound

section Sufficient
variable [TrueRoot K] {a : SquareMatrix K (n + 1)} (ha : a.IsSymm) {beta growth : K}
include ha

theorem not_positiveForm_of_cholesky {t : K}
    (h : ((liftMatrix a).shift (number t)).cholesky? = none) : ¬ PositiveForm (a + t • 1) := by
  intro hpos
  obtain ⟨l, hl⟩ := (exists_cholesky_iff (isSymm_add_smul_one ha t)).mpr hpos
  rw [shift_lift, hl] at h
  cases h

/-- With enough attempts for a sufficient shift a factorization is found. -/
theorem exists_choleskyWithShift {attempts : ℤ} {k : ℕ} (hk : k < attempts.toNat)
    (hpos : PositiveForm (a + shiftAt beta growth (smallestDiagonal a) k • 1)) :
    ∃ f t, (liftMatrix a).choleskyWithShift (number beta) (number growth) attempts =
        .ok (liftMatrix f, number t) ∧ f * fᵀ = a + t • 1 := by
  classical
  have hsome : ∃ k, PositiveForm (a + shiftAt beta growth (smallestDiagonal a) k • 1) := ⟨k, hpos⟩
  have hfirst : Nat.find hsome < attempts.toNat := (Nat.find_min' hsome hpos).trans_lt hk
  obtain ⟨f, hf, -, hprod⟩ := choleskyWithShift_of_first ha beta growth hfirst
    (fun j hj => Nat.find_min hsome hj) (Nat.find_spec hsome)
  exact ⟨f, _, hf, hprod⟩

/-- The shift suffices and does not overshoot. Let `mu` be any shift for which the matrix is positive
definite. The shift that is used is the first of those that are tried for which there is a factor,
and it is at most the larger of `growth * mu` and `beta + mu`; if `mu` is at most `beta` times the
power of the growth for which the attempts leave room, a factorization is found; and the shifts that
are tried grow strictly. -/
theorem choleskyWithShift_suffices (hbeta : 0 < beta) (hgrowth : 1 < growth) {mu : K}
    (hmu : 0 ≤ mu) (hpos : PositiveForm (a + mu • 1)) (attempts : ℤ) :
    let m := liftMatrix a
    let tried := shiftTried m (number beta) (number growth)
    let result := m.choleskyWithShift (number beta) (number growth) attempts
    (∀ l tau, result = .ok (l, tau) →
      tau ≤ number (max (growth * mu) (beta + mu)) ∧
      ∃ k : ℕ, k < attempts ∧ tau = tried k ∧ (m.shift tau).cholesky? = some l ∧
        ∀ j < k, (m.shift (tried j)).cholesky? = none) ∧
    (2 ≤ attempts → mu ≤ beta * growth ^ (attempts - 2).toNat →
      ∃ f t, result = .ok (liftMatrix f, number t) ∧ f * fᵀ = a + t • 1) ∧
    ∀ i j, i < j → tried i < tried j := by
  intro m tried result
  have htried : ∀ k, tried k = number (shiftAt beta growth (smallestDiagonal a) k) :=
    shiftTried_lift a beta growth
  refine ⟨fun l tau h => ?_, fun hattempts hle => ?_, fun i j hij => ?_⟩
  · obtain ⟨k, hk, hused, hfactor, hnone⟩ := exists_of_choleskyWithShift h
    refine ⟨?_, k, by omega, hused, hfactor, hnone⟩
    have hfailed : ∀ j < k,
        ¬ PositiveForm (a + shiftAt beta growth (smallestDiagonal a) j • 1) := by
      intro j hj
      apply not_positiveForm_of_cholesky ha
      rw [← htried]
      exact hnone j hj
    rw [hused, shiftTried_lift, number_le]
    exact shiftAt_le_of_previous hbeta hgrowth hmu hpos hfailed
  · obtain ⟨k, rfl⟩ : ∃ k : ℕ, attempts = k + 2 := ⟨(attempts - 2).toNat, by omega⟩
    have hpower : ((k : ℤ) + 2 - 2).toNat = k := by omega
    rw [hpower] at hle
    apply exists_choleskyWithShift ha (k := k + 1) (by omega)
    exact hpos.of_le (hle.trans (mul_pow_le_shiftAt _ hgrowth k))
  · rw [htried, htried, number_lt]
    exact strictMono_shiftAt _ hbeta hgrowth hij

end Sufficient

/-- For `[[0, 1], [1, 0]]`, with base one, growth two and three attempts, the shift two is
sufficient, so there is a factorization, with a shift of at most four. -/
theorem choleskyWithShift_suffices_swap :
    let a : SquareMatrix ℝ 2 := !![0, 1; 1, 0]
    PositiveForm (a + (2 : ℝ) • 1) ∧
    ∃ f t, (liftMatrix a).choleskyWithShift (number 1) (number 2) 3 =
        .ok (liftMatrix f, number t) ∧ f * fᵀ = a + t • 1 ∧ t ≤ 4 := by
  intro a
  have hsymm : a.IsSymm := by
    ext i j
    fin_cases i <;> fin_cases j <;> rfl
  have hpos : PositiveForm (a + (2 : ℝ) • 1) := by
    intro v hv
    have hform : v ⬝ᵥ (a + (2 : ℝ) • 1) *ᵥ v = v ⬝ᵥ v + (v 0 + v 1) * (v 0 + v 1) := by
      simp [a, Matrix.mulVec, dotProduct, Fin.sum_univ_two]
      ring
    rw [hform]
    exact add_pos_of_pos_of_nonneg (dotProduct_self_pos hv) (mul_self_nonneg _)
  obtain ⟨hbound, hfound, -⟩ := choleskyWithShift_suffices hsymm one_pos one_lt_two
    zero_le_two hpos 3
  obtain ⟨f, t, hresult, hprod⟩ := hfound (by norm_num) (by norm_num)
  obtain ⟨hle, -⟩ := hbound _ _ hresult
  rw [number_le] at hle
  exact ⟨hpos, f, t, hresult, hprod, hle.trans (by norm_num)⟩

end Downhill
