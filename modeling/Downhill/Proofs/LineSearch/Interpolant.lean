import Mathlib

/-! Polynomials that match a function along a line. A polynomial of degree at most three is known by
its expansion about a point: its value and its slope there and two more coefficients. -/
namespace Downhill.Interpolant

open Polynomial

section Expansion
variable {K : Type} [CommRing K] (a value slope second third t : K) (P : K[X])

/-- The polynomial with this value and this slope at `a`. -/
noncomputable def expansion (a value slope second third : K) : K[X] :=
  C value + C slope * (X - C a) + C second * (X - C a) ^ 2 + C third * (X - C a) ^ 3

@[simp] theorem eval_expansion : (expansion a value slope second third).eval t =
    value + slope * (t - a) + second * (t - a) ^ 2 + third * (t - a) ^ 3 := by
  simp [expansion]

@[simp] theorem derivative_expansion : derivative (expansion a value slope second third) =
    expansion a slope (2 * second) (3 * third) 0 := by
  simp only [expansion, derivative_add, derivative_C_mul, derivative_C, derivative_X_sub_C,
    derivative_X_sub_C_pow, C_mul, C_0, C_ofNat, Nat.cast_ofNat, Nat.add_one_sub_one, pow_one]
  ring

theorem natDegree_expansion_le : (expansion a value slope second third).natDegree ≤ 3 := by
  unfold expansion
  compute_degree

theorem natDegree_expansion_zero_le : (expansion a value slope second 0).natDegree ≤ 2 := by
  unfold expansion
  rw [C_0, zero_mul, add_zero]
  compute_degree

theorem eq_sum_taylor {n : ℕ} (h : P.natDegree < n) :
    P = ∑ i ∈ Finset.range n, C ((taylor a P).coeff i) * (X - C a) ^ i := by
  conv_lhs => rw [← sum_taylor_eq P a]
  rw [Polynomial.sum_over_range' _ _ n (by rwa [natDegree_taylor])]
  simp

theorem exists_expansion (h : P.natDegree ≤ 3) :
    ∃ second third, P = expansion a (P.eval a) (P.derivative.eval a) second third := by
  refine ⟨(taylor a P).coeff 2, (taylor a P).coeff 3, ?_⟩
  conv_lhs => rw [eq_sum_taylor a P (Nat.lt_succ_of_le h)]
  simp [Finset.sum_range_succ, expansion]

theorem exists_expansion_zero (h : P.natDegree ≤ 2) :
    ∃ second, P = expansion a (P.eval a) (P.derivative.eval a) second 0 := by
  refine ⟨(taylor a P).coeff 2, ?_⟩
  conv_lhs => rw [eq_sum_taylor a P (Nat.lt_succ_of_le h)]
  simp [Finset.sum_range_succ, expansion]

end Expansion

section Minimum
variable {P : ℝ[X]} {s t : ℝ}

theorem deriv_eval : deriv (fun s => P.eval s) = fun s => P.derivative.eval s :=
  funext fun _ => P.deriv

theorem deriv_deriv_eval :
    deriv (deriv fun s => P.eval s) = fun s => P.derivative.derivative.eval s := by
  rw [deriv_eval, deriv_eval]

theorem isLocalMin_of_curved (hslope : P.derivative.eval t = 0)
    (hcurved : 0 < P.derivative.derivative.eval t) : IsLocalMin (fun s => P.eval s) t :=
  isLocalMin_of_deriv_deriv_pos (by rwa [deriv_deriv_eval]) (by rwa [deriv_eval])
    P.continuous.continuousAt

theorem slope_eq_zero_of_isLocalMin (h : IsLocalMin (fun s => P.eval s) s) :
    P.derivative.eval s = 0 := by
  rw [← h.deriv_eq_zero, deriv_eval]

/-- Where a minimum were a strict maximum too, the polynomial would be constant around it. -/
theorem curvature_nonneg_of_isLocalMin (h : IsLocalMin (fun s => P.eval s) s) :
    0 ≤ P.derivative.derivative.eval s := by
  by_contra hneg
  have hmax : IsLocalMax (fun s => P.eval s) s :=
    isLocalMax_of_deriv_deriv_neg (by simpa [deriv_deriv_eval] using hneg) h.deriv_eq_zero
      P.continuous.continuousAt
  have hconst : (fun s => P.eval s) =ᶠ[nhds s] fun _ => P.eval s := by
    filter_upwards [h, hmax] with u hle hge using le_antisymm hge hle
  refine hneg (le_of_eq ?_)
  rw [← congrFun deriv_deriv_eval s, hconst.deriv.deriv_eq]
  simp

/-- A polynomial of degree at most three has no other minimum than one where it is curved upwards:
the slope has its second zero where the curvature is opposite. -/
theorem isLocalMin_iff (hdegree : P.natDegree ≤ 3) (hslope : P.derivative.eval t = 0)
    (hcurved : 0 < P.derivative.derivative.eval t) : IsLocalMin (fun s => P.eval s) s ↔ s = t := by
  refine ⟨fun h => ?_, ?_⟩
  · by_contra hne
    have hzero := slope_eq_zero_of_isLocalMin h
    have hnonneg := curvature_nonneg_of_isLocalMin h
    obtain ⟨second, third, hP⟩ := exists_expansion t P hdegree
    rw [hslope] at hP
    rw [hP, derivative_expansion, derivative_expansion, eval_expansion] at hcurved hnonneg
    rw [hP, derivative_expansion, eval_expansion] at hzero
    have hopposite : 2 * second + 3 * third * (s - t) = 0 :=
      mul_right_cancel₀ (sub_ne_zero.mpr hne) (by linarith)
    linarith
  · rintro rfl
    exact isLocalMin_of_curved hslope hcurved

end Minimum

end Downhill.Interpolant
