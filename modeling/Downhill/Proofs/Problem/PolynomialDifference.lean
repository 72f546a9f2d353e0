import Downhill.Proofs.Exact.Basic
import Downhill.Proofs.Problem.ExactDifference

/-! Polynomials of low degree across a point. Along coordinate `i` a polynomial is one of a single
variable, whose coefficients are its repeated partial derivatives. So what a central difference of a
cubic polynomial gets wrong is the same at all points, and that of a quadratic one gets nothing
wrong. -/
namespace Downhill
variable {K : Type} [ExactField K] {n : ℕ}

open MvPolynomial

section Partials
variable {P : MvPolynomial (Fin n) K} (i j : Fin n)

theorem pderiv_comm (P : MvPolynomial (Fin n) K) :
    pderiv i (pderiv j P) = pderiv j (pderiv i P) := by
  let partials : Fin n → Derivation K (MvPolynomial (Fin n) K) (MvPolynomial (Fin n) K) := pderiv
  -- a derivation is known from its values at the variables
  have hbracket : ⁅partials i, partials j⁆ = 0 := by
    apply derivation_ext
    intro k
    simp only [partials, Derivation.commutator_apply, pderiv_X, Pi.single_apply]
    split_ifs <;> simp
  exact sub_eq_zero.mp (congrArg (fun D => D P) hbracket)

theorem totalDegree_pderiv_le {d : ℕ} (h : P.totalDegree ≤ d + 1) :
    (pderiv i P).totalDegree ≤ d := by
  apply Finset.sup_le
  intro m hm
  have hcoeff : coeff (m + Finsupp.single i 1) P ≠ 0 := by
    intro hzero
    rw [mem_support_iff, coeff_pderiv, hzero, zero_mul] at hm
    exact hm rfl
  have hdegree := le_totalDegree (mem_support_iff.mpr hcoeff)
  rw [Finsupp.sum_add_index' (fun _ => rfl) fun _ _ _ => rfl, Finsupp.sum_single_index rfl]
    at hdegree
  omega

theorem eval_of_totalDegree_le_zero (h : P.totalDegree ≤ 0) (x y : Fin n → K) :
    eval x P = eval y P := by
  rw [totalDegree_eq_zero_iff_eq_C.mp (Nat.le_zero.mp h), eval_C, eval_C]

end Partials

section Line
variable (x : Fin n → K) (i : Fin n) (P : MvPolynomial (Fin n) K)

/-- A polynomial on the line through `x` along coordinate `i`. -/
noncomputable def alongLine : Polynomial K :=
  aeval (fun j => Polynomial.C (x j) + if j = i then Polynomial.X else 0) P

theorem eval_alongLine (t : K) : (alongLine x i P).eval t = eval (x + Pi.single i t) P := by
  induction P using MvPolynomial.induction_on with
  | C a => simp [alongLine]
  | add P Q hP hQ => simp_all [alongLine]
  | mul_X P j hP =>
    rcases eq_or_ne j i with rfl | hji <;> simp_all [alongLine]

theorem derivative_alongLine : (alongLine x i P).derivative = alongLine x i (pderiv i P) := by
  induction P using MvPolynomial.induction_on with
  | C a => simp [alongLine]
  | add P Q hP hQ => simp_all [alongLine]
  | mul_X P j hP =>
    simp only [alongLine] at hP ⊢
    rcases eq_or_ne j i with rfl | hji
    · simp [hP]
      ring
    · simp [hP, hji, mul_comm]

theorem natDegree_alongLine_le : (alongLine x i P).natDegree ≤ P.totalDegree := by
  have hlinear : ∀ j, (Polynomial.C (x j) + if j = i then Polynomial.X else 0).natDegree ≤ 1 := by
    intro j
    split_ifs
    · rw [add_comm, Polynomial.natDegree_X_add_C]
    · simp
  simpa [alongLine] using aeval_natDegree_le P le_rfl _ hlinear

/-- The coefficients on a line are those of the expansion of Taylor. -/
theorem coeff_alongLine_mul_factorial (k : ℕ) :
    (alongLine x i P).coeff k * k.factorial = eval x ((pderiv i)^[k] P) := by
  induction k generalizing P with
  | zero => simp [Polynomial.coeff_zero_eq_eval_zero, eval_alongLine]
  | succ k ih =>
    rw [Function.iterate_succ_apply, ← ih, ← derivative_alongLine, Polynomial.coeff_derivative,
      Nat.factorial_succ]
    push_cast
    ring

end Line

section Across
variable {P : MvPolynomial (Fin n) K} (x : Fin n → K) (i j : Fin n) (t s : K)

theorem eval_add_single {d : ℕ} (h : P.totalDegree ≤ d) : eval (x + Pi.single i t) P =
    ∑ k ∈ Finset.range (d + 1), eval x ((pderiv i)^[k] P) / k.factorial * t ^ k := by
  have hdegree : (alongLine x i P).natDegree < d + 1 :=
    ((natDegree_alongLine_le x i P).trans h).trans_lt d.lt_succ_self
  rw [← eval_alongLine, Polynomial.eval_eq_sum_range' hdegree]
  apply Finset.sum_congr rfl
  intro k _
  rw [← coeff_alongLine_mul_factorial,
    mul_div_cancel_right₀ _ (Nat.cast_ne_zero.mpr k.factorial_ne_zero)]

theorem eval_sub_single {d : ℕ} (h : P.totalDegree ≤ d) : eval (x - Pi.single i t) P =
    ∑ k ∈ Finset.range (d + 1), eval x ((pderiv i)^[k] P) / k.factorial * (-t) ^ k := by
  rw [sub_eq_add_neg, ← Pi.single_neg, eval_add_single x i (-t) h]

/-- The difference across a point: the slope, and the terms of odd order beyond. -/
theorem eval_across (h : P.totalDegree ≤ 3) :
    eval (x + Pi.single i t) P - eval (x - Pi.single i t) P =
      2 * t * eval x (pderiv i P) + t ^ 3 / 3 * eval x (pderiv i (pderiv i (pderiv i P))) := by
  rw [eval_add_single x i t h, eval_sub_single x i t h]
  simp [Finset.sum_range_succ, Nat.factorial]
  ring

theorem eval_across_of_le_two (h : P.totalDegree ≤ 2) :
    eval (x + Pi.single i t) P - eval (x - Pi.single i t) P = 2 * t * eval x (pderiv i P) := by
  rw [eval_add_single x i t h, eval_sub_single x i t h]
  simp [Finset.sum_range_succ, Nat.factorial]
  ring

theorem eval_bend (h : P.totalDegree ≤ 3) :
    eval (x + Pi.single i t) P - 2 * eval x P + eval (x - Pi.single i t) P =
      t * t * eval x (pderiv i (pderiv i P)) := by
  rw [eval_add_single x i t h, eval_sub_single x i t h]
  simp [Finset.sum_range_succ, Nat.factorial]
  ring

/-- The four corners. The cubic terms along coordinate `j` are the same on both sides of `x`. -/
theorem eval_twist (h : P.totalDegree ≤ 3) :
    eval (x + Pi.single i t + Pi.single j s) P - eval (x + Pi.single i t - Pi.single j s) P -
      eval (x - Pi.single i t + Pi.single j s) P + eval (x - Pi.single i t - Pi.single j s) P =
      4 * t * s * eval x (pderiv i (pderiv j P)) := by
  have hslope : (pderiv j P).totalDegree ≤ 2 := totalDegree_pderiv_le j h
  have hcubic : eval (x + Pi.single i t) (pderiv j (pderiv j (pderiv j P))) =
      eval (x - Pi.single i t) (pderiv j (pderiv j (pderiv j P))) :=
    eval_of_totalDegree_le_zero
      (totalDegree_pderiv_le j (totalDegree_pderiv_le j hslope)) _ _
  have hup := eval_across (x + Pi.single i t) j s h
  have hdown := eval_across (x - Pi.single i t) j s h
  have hslopes := eval_across_of_le_two x i t hslope
  rw [hcubic] at hup
  linear_combination hup - hdown + 2 * s * hslopes

end Across

end Downhill

/-! Central differences of polynomials. Where a function has the values of one in the field, the
quotients are those of the field; so the gradient of a quadratic polynomial and the Hessian of a
cubic one come out without an error, however long the steps are and whatever they are along each
coordinate. -/
open Matrix

namespace Downhill
variable {K : Type} [ExactField K] {n : ℕ}

open Exact

section Derivatives
variable (P : MvPolynomial (Fin n) K) (x : Fin n → K)

noncomputable def polynomialGradient : Fin n → K :=
  fun i => MvPolynomial.eval x (MvPolynomial.pderiv i P)

noncomputable def polynomialHessian : SquareMatrix K n :=
  of fun i j => MvPolynomial.eval x (MvPolynomial.pderiv i (MvPolynomial.pderiv j P))

theorem isSymm_polynomialHessian : (polynomialHessian P x).IsSymm := by
  ext i j
  exact congrArg (MvPolynomial.eval x) (pderiv_comm j i P)

end Derivatives

namespace Difference

section Values
variable {m : Type → Type} [Monad m] [LawfulMonad m]
  {f : Vector (Exact K) n → m (Exact K)} {F : (Fin n → K) → K}
  {g : Vector (Exact K) n → m (Vector (Exact K) n)} {G : (Fin n → K) → Fin n → K}
  {eps : K} (heps : 0 < eps) (x : Fin n → K)
include heps

theorem slope_lift (hf : ∀ z, f (lift z) = pure (number (F z))) (i : Fin n) :
    let h := moved eps x i
    slope f (number eps) (lift x) i =
      pure (number ((F (x + Pi.single i h) - F (x - Pi.single i h)) / (2 * h))) := by
  simp only [slope, get_moves, spike_lift, lift_add, lift_sub, hf, pure_bind,
    slope_number (moved_pos heps x i)]

theorem bend_lift (hf : ∀ z, f (lift z) = pure (number (F z))) (i : Fin n) :
    let h := moved eps x i
    bend f (number eps) (lift x) (number (F x)) i =
      pure (number ((F (x + Pi.single i h) - 2 * F x + F (x - Pi.single i h)) / (h * h))) := by
  simp only [bend, get_moves, spike_lift, lift_add, lift_sub, hf, pure_bind,
    bend_number (moved_pos heps x i)]

theorem twist_lift (hf : ∀ z, f (lift z) = pure (number (F z))) (i j : Fin n) :
    let u := Pi.single i (moved eps x i)
    let v := Pi.single j (moved eps x j)
    twist f (number eps) (lift x) i j =
      pure (number ((F (x + u + v) - F (x + u - v) - F (x - u + v) + F (x - u - v)) /
        (4 * moved eps x i * moved eps x j))) := by
  simp only [twist, get_moves, spike_lift, lift_add, lift_sub, hf, pure_bind,
    twist_number (moved_pos heps x i) (moved_pos heps x j)]

theorem column_lift (hg : ∀ z, g (lift z) = pure (lift (G z))) (i : Fin n) :
    let h := moved eps x i
    column g (number eps) (lift x) i =
      pure (lift ((1 / (2 * h)) • (G (x + Pi.single i h) - G (x - Pi.single i h)))) := by
  rw [column, get_moves, spike_lift, lift_add, lift_sub, hg, pure_bind, hg, pure_bind,
    column_number (moved_pos heps x i)]

/-- The gradient, from what its entries are. -/
theorem gradient_lift (hf : ∀ z, f (lift z) = pure (number (F z))) {w : Fin n → K}
    (hw : ∀ i, F (x + Pi.single i (moved eps x i)) - F (x - Pi.single i (moved eps x i)) =
      2 * moved eps x i * w i) :
    gradient f (number eps) (lift x) = pure (lift w) := by
  have hentry : slope f (number eps) (lift x) = fun i => pure (number (w i)) := by
    funext i
    have hh : (2 : K) * moved eps x i ≠ 0 := (mul_pos two_pos (moved_pos heps x i)).ne'
    rw [slope_lift heps x hf, hw, mul_div_cancel_left₀ _ hh]
  rw [gradient, hentry, Vector.ofFnM_pure]
  rfl

/-- The Hessian from values. Its entries are found above the diagonal, and mirrored. -/
theorem hessian_lift (hf : ∀ z, f (lift z) = pure (number (F z))) {a : SquareMatrix K n}
    (ha : a.IsSymm)
    (hbend : ∀ i, F (x + Pi.single i (moved eps x i)) - 2 * F x +
      F (x - Pi.single i (moved eps x i)) = moved eps x i * moved eps x i * a i i)
    (htwist : ∀ i j, F (x + Pi.single i (moved eps x i) + Pi.single j (moved eps x j)) -
      F (x + Pi.single i (moved eps x i) - Pi.single j (moved eps x j)) -
      F (x - Pi.single i (moved eps x i) + Pi.single j (moved eps x j)) +
      F (x - Pi.single i (moved eps x i) - Pi.single j (moved eps x j)) =
      4 * moved eps x i * moved eps x j * a i j) :
    hessian f (number eps) (lift x) = pure (liftMatrix a) := by
  have hentry : ∀ i j, (if j < i then pure 0
      else if i = j then bend f (number eps) (lift x) (number (F x)) i
      else twist f (number eps) (lift x) i j) =
      (pure (if j < i then 0 else number (a i j)) : m (Exact K)) := by
    intro i j
    have hi := (moved_pos heps x i).ne'
    have hj := (moved_pos heps x j).ne'
    split_ifs with hji hij
    · rfl
    · subst hij
      rw [bend_lift heps x hf, hbend, mul_div_cancel_left₀ _ (mul_ne_zero hi hi)]
    · rw [twist_lift heps x hf, htwist,
        mul_div_cancel_left₀ _ (mul_ne_zero (mul_ne_zero four_ne_zero hi) hj)]
  simp only [hessian, hf, pure_bind, hentry, Vector.ofFnM_pure]
  congr 1
  ext i hi j hj
  rcases lt_or_ge j i with hji | hij
  · simp [hji, hji.not_gt, ← ha.apply ⟨i, hi⟩ ⟨j, hj⟩]
  · simp [hij.not_gt]

/-- The Hessian from gradients, of which the columns are made symmetric. -/
theorem hessianOfGradient_lift (hg : ∀ z, g (lift z) = pure (lift (G z))) {a : SquareMatrix K n}
    (ha : ∀ i, G (x + Pi.single i (moved eps x i)) - G (x - Pi.single i (moved eps x i)) =
      (2 * moved eps x i) • aᵀ i) :
    hessianOfGradient g (number eps) (lift x) = pure (liftMatrix (symmetricPart a)) := by
  have hcolumn : column g (number eps) (lift x) = fun i => pure (lift (aᵀ i)) := by
    funext i
    have hh : (2 : K) * moved eps x i ≠ 0 := (mul_pos two_pos (moved_pos heps x i)).ne'
    rw [column_lift heps x hg, ha, smul_smul, one_div_mul_cancel hh, one_smul]
  rw [hessianOfGradient, hcolumn, Vector.ofFnM_pure, pure_bind]
  exact congrArg pure ((congrArg Matrix.symmetrize (transpose_lift aᵀ)).trans (symmetrize_lift a))

end Values

section Polynomials
variable {f : Vector (Exact K) n → Except (Fault (Exact K)) (Exact K)}
  {g : Vector (Exact K) n → Except (Fault (Exact K)) (Vector (Exact K) n)}
  {P : MvPolynomial (Fin n) K} {eps : K} (heps : 0 < eps) (x : Fin n → K)
include heps

theorem not_number_le_zero : ¬ (number eps : Exact K) ≤ 0 := heps.not_ge

theorem gradient?_polynomial (hP : P.totalDegree ≤ 2)
    (hf : ∀ z, f (lift z) = .ok (number (MvPolynomial.eval z P))) :
    gradient? f (number eps) (lift x) = .ok (lift (polynomialGradient P x)) := by
  rw [gradient?, if_neg (not_number_le_zero heps), gradientAt_vector]
  exact gradient_lift heps x hf fun i => eval_across_of_le_two x i _ hP

theorem hessian?_polynomial (hP : P.totalDegree ≤ 3)
    (hf : ∀ z, f (lift z) = .ok (number (MvPolynomial.eval z P))) :
    hessian? f (number eps) (lift x) = .ok (liftMatrix (polynomialHessian P x)) := by
  rw [hessian?, if_neg (not_number_le_zero heps), hessianAt_vector]
  exact hessian_lift heps x hf (isSymm_polynomialHessian P x)
    (fun i => eval_bend x i _ hP) fun i j => eval_twist x i j _ _ hP

/-- The gradient of a cubic polynomial is quadratic, so its differences are exact. -/
theorem hessianOfGradient?_polynomial (hP : P.totalDegree ≤ 3)
    (hg : ∀ z, g (lift z) = .ok (lift (polynomialGradient P z))) :
    hessianOfGradient? g (number eps) (lift x) = .ok (liftMatrix (polynomialHessian P x)) := by
  rw [hessianOfGradient?, if_neg (not_number_le_zero heps), hessianOfGradientAt_vector,
    ← symmetricPart_of_isSymm (isSymm_polynomialHessian P x)]
  apply hessianOfGradient_lift heps x hg
  intro i
  funext j
  rw [isSymm_polynomialHessian P x]
  have hacross := eval_across_of_le_two x i (moved eps x i) (totalDegree_pderiv_le j hP)
  exact hacross

theorem hessianOfGradient?_affine {a : SquareMatrix K n} {c : Fin n → K}
    (hg : ∀ z, g (lift z) = .ok (lift (a *ᵥ z + c))) :
    hessianOfGradient? g (number eps) (lift x) = .ok (liftMatrix ((1 / 2 : K) • (a + aᵀ))) := by
  rw [hessianOfGradient?, if_neg (not_number_le_zero heps), hessianOfGradientAt_vector]
  have hhalf : (1 / 2 : K) • (a + aᵀ) = symmetricPart a := by rw [symmetricPart, Nat.cast_ofNat]
  rw [hhalf]
  apply hessianOfGradient_lift heps x hg
  intro i
  rw [mulVec_add, mulVec_sub, mulVec_single]
  funext j
  simp
  ring

end Polynomials

/-- Central differences are exact on polynomials of low degree, with any positive step: those of
values give the gradient up to degree two and the Hessian up to degree three, and those of gradients
give the Hessian up to degree three; where the gradient is an affine map that need not be symmetric,
they give the symmetric part of its matrix. -/
theorem exact_on_polynomials {eps : K} (heps : 0 < eps) (x : Fin n → K) :
    (∀ (P : MvPolynomial (Fin n) K) (f : Vector (Exact K) n → Except (Fault (Exact K)) (Exact K)),
      P.totalDegree ≤ 2 → (∀ z, f (lift z) = .ok (number (MvPolynomial.eval z P))) →
      gradient? f (number eps) (lift x) = .ok (lift (polynomialGradient P x))) ∧
    (∀ (P : MvPolynomial (Fin n) K) (f : Vector (Exact K) n → Except (Fault (Exact K)) (Exact K)),
      P.totalDegree ≤ 3 → (∀ z, f (lift z) = .ok (number (MvPolynomial.eval z P))) →
      hessian? f (number eps) (lift x) = .ok (liftMatrix (polynomialHessian P x))) ∧
    (∀ (P : MvPolynomial (Fin n) K)
      (g : Vector (Exact K) n → Except (Fault (Exact K)) (Vector (Exact K) n)),
      P.totalDegree ≤ 3 → (∀ z, g (lift z) = .ok (lift (polynomialGradient P z))) →
      hessianOfGradient? g (number eps) (lift x) = .ok (liftMatrix (polynomialHessian P x))) ∧
    ∀ (a : SquareMatrix K n) (c : Fin n → K)
      (g : Vector (Exact K) n → Except (Fault (Exact K)) (Vector (Exact K) n)),
      (∀ z, g (lift z) = .ok (lift (a *ᵥ z + c))) →
      hessianOfGradient? g (number eps) (lift x) = .ok (liftMatrix ((1 / 2 : K) • (a + aᵀ))) := by
  refine ⟨?_, ?_, ?_, ?_⟩
  · intro P f hP hf
    exact gradient?_polynomial heps x hP hf
  · intro P f hP hf
    exact hessian?_polynomial heps x hP hf
  · intro P g hP hg
    exact hessianOfGradient?_polynomial heps x hP hg
  · intro a c g hg
    exact hessianOfGradient?_affine heps x hg

section Witness
open MvPolynomial

/-- A quadratic and a cubic polynomial, the gradient of the latter, and an affine map whose matrix
is not symmetric, at a point where the steps along the two coordinates differ. -/
theorem exact_on_saddle_and_cubic :
    gradient? (fun v : Vector (Exact ℚ) 2 => .ok (v.get 0 * v.get 1)) (number (1 / 10))
      (lift ![1, -3]) = .ok (lift ![-3, 1]) ∧
    hessian? (fun v : Vector (Exact ℚ) 2 => .ok (v.get 0 * v.get 0 * v.get 1)) (number (1 / 10))
      (lift ![1, -3]) = .ok (liftMatrix (!![-6, 2; 2, 0] : SquareMatrix ℚ 2)) ∧
    hessianOfGradient? (fun v : Vector (Exact ℚ) 2 =>
        .ok #v[v.get 0 * v.get 1 + v.get 0 * v.get 1, v.get 0 * v.get 0]) (number (1 / 10))
      (lift ![1, -3]) = .ok (liftMatrix (!![-6, 2; 2, 0] : SquareMatrix ℚ 2)) ∧
    hessianOfGradient? (fun v : Vector (Exact ℚ) 2 => .ok #v[v.get 1 + 1, 0]) (number (1 / 10))
      (lift ![1, -3]) = .ok (liftMatrix (!![0, 1 / 2; 1 / 2, 0] : SquareMatrix ℚ 2)) := by
  have hstep : (0 : ℚ) < 1 / 10 := by norm_num
  obtain ⟨hgradient, hhessian, hdifferences, haffine⟩ :=
    exact_on_polynomials hstep ![1, -3]
  have hdegree : (X 0 * X 1 : MvPolynomial (Fin 2) ℚ).totalDegree ≤ 2 :=
    (totalDegree_mul _ _).trans (by simp)
  have hcubicDegree : (X 0 * (X 0 * X 1) : MvPolynomial (Fin 2) ℚ).totalDegree ≤ 3 :=
    (totalDegree_mul _ _).trans (by rw [totalDegree_X]; omega)
  have hslopes : polynomialGradient (X 0 * X 1 : MvPolynomial (Fin 2) ℚ) ![1, -3] = ![-3, 1] := by
    funext i
    fin_cases i <;> simp [polynomialGradient]
  have hbends : polynomialHessian (X 0 * (X 0 * X 1) : MvPolynomial (Fin 2) ℚ) ![1, -3] =
      !![-6, 2; 2, 0] := by
    ext i j
    fin_cases i <;> fin_cases j <;> norm_num [polynomialHessian]
  have hpart : (1 / 2 : ℚ) • (!![0, 1; 0, 0] + (!![0, 1; 0, 0] : SquareMatrix ℚ 2)ᵀ) =
      !![0, 1 / 2; 1 / 2, 0] := by decide +kernel
  rw [← hslopes, ← hbends, ← hpart]
  refine ⟨hgradient _ _ hdegree ?_, hhessian _ _ hcubicDegree ?_,
    hdifferences _ _ hcubicDegree ?_, haffine _ ![1, 0] _ ?_⟩
  · intro z
    simp
  · intro z
    simp [mul_assoc]
  · intro z
    refine congrArg Except.ok (Vector.ext fun i hi => ?_)
    interval_cases i <;> simp [polynomialGradient]
  · intro z
    refine congrArg Except.ok (Vector.ext fun i hi => ?_)
    interval_cases i
    · simp [vecHead, vecTail]
    · simp

end Witness

end Difference

end Downhill
