import Downhill.Proofs.Exact.Basic
import Downhill.Proofs.LineSearch.MoreThuente.Interval

/-! Extrapolation in exact arithmetic. Without a bracketed interval the best end is to the left of
the trial and both slopes are negative; then every formula that may give the next trial is a number
beyond the trial, as long as the upper bound is. -/
namespace Downhill.MoreThuente
variable {K : Type} [ExactField K]

open Exact

/-- An end with numbers of the field. -/
def End.exact (e : End K) : End (Exact K) := ⟨number e.step, number e.value, number e.slope⟩

section Fields
variable (e : End K)

omit [ExactField K] in
@[simp] theorem End.exact_step : e.exact.step = number e.step := rfl

omit [ExactField K] in
@[simp] theorem End.exact_value : e.exact.value = number e.value := rfl

omit [ExactField K] in
@[simp] theorem End.exact_slope : e.exact.slope = number e.slope := rfl

theorem End.lowered_exact (g : K) : e.exact.lowered (number g) =
    End.exact ⟨e.step, e.value - e.step * g, e.slope - g⟩ := by
  simp [End.lowered, End.exact]

theorem End.raised_lowered (g : K) : (e.exact.lowered (number g)).raised (number g) = e.exact := by
  simp [End.lowered, End.raised, End.exact]

end Fields

theorem opposite_number (a b : K) : opposite (number a) (number b) = decide (a * b < 0) := by
  rw [Bool.eq_iff_iff]
  simp [opposite, mul_neg_iff]

/-- The root of the discriminant, on values scaled by the largest of the three. -/
theorem cubicGamma_number (theta a b : K) :
    cubicGamma (number theta) (number a) (number b) =
      let scale := max (max |theta| |a|) |b|
      number (scale * ExactField.root
        (max 0 (theta / scale * (theta / scale) - a / scale * (b / scale)))) := by
  simp only [cubicGamma, abs_number, larger_number, zero_eq, number_beq, decide_eq_true_eq]
  by_cases hscale : max (max |theta| |a|) |b| = 0
  · rw [if_pos hscale, hscale, zero_mul]
  · rw [if_neg hscale]
    simp only [number_div hscale, number_mul, number_sub, larger_number]
    rw [sqrt_number (le_max_left _ _), number_mul]

theorem exists_cubicGamma (theta a b : K) :
    ∃ gamma, 0 ≤ gamma ∧ cubicGamma (number theta) (number a) (number b) = number gamma :=
  ⟨_, mul_nonneg (le_max_of_le_right (abs_nonneg b)) (ExactField.root_nonneg _),
    cubicGamma_number theta a b⟩

theorem oriented_number (flip : Bool) (gamma : K) :
    oriented flip (number gamma) = number (if flip then -gamma else gamma) := by
  cases flip <;> rfl

theorem exists_theta {x p : End K} (h : p.step - x.step ≠ 0) :
    ∃ t, theta x.exact p.exact = number t := by
  simp only [theta, End.exact, ofScientific_eq, number_sub, number_mul, number_div h, number_add]
  exact ⟨_, rfl⟩

/-- Farther than `b`, seen from `a`. -/
def Beyond (a b t : K) : Prop := 0 < (t - b) * (b - a)

theorem beyond_iff_of_lt {a b t : K} (h : a < b) : Beyond a b t ↔ b < t := by
  rw [Beyond, mul_pos_iff_of_pos_right (sub_pos.mpr h), sub_pos]

theorem beyond_of_neg {a b r : K} (h : b - a ≠ 0) (hr : r < 0) : Beyond a b (b + r * (a - b)) := by
  have := mul_pos (neg_pos.mpr hr) (mul_self_pos.mpr h)
  unfold Beyond
  linarith

/-- The function still falls at `p` on the way from `x`, and less steeply than at `x`. -/
structure Flattens (x p : End K) : Prop where
  falls : p.slope * (p.step - x.step) < 0
  flatter : 0 < (p.slope - x.slope) * (p.step - x.step)

variable {x y p : End K}

/-- What the cubic step beyond the trial divides by; `gamma` is the root of the discriminant. -/
def beyondDivisor (x p : End K) (gamma : K) : K :=
  (if x.step < p.step then -gamma else gamma) + (x.slope - p.slope) +
    (if x.step < p.step then -gamma else gamma)

/-- Where the slope flattens, the divisor points against the way from `x` to `p`. -/
theorem beyondDivisor_ne (hflatter : 0 < (p.slope - x.slope) * (p.step - x.step)) {gamma : K}
    (hgamma : 0 ≤ gamma) : beyondDivisor x p gamma ≠ 0 := by
  unfold beyondDivisor
  refine left_ne_zero_of_mul (b := p.step - x.step) (ne_of_lt ?_)
  split_ifs with hxp
  · have := mul_nonneg hgamma (sub_pos.mpr hxp).le
    linarith
  · have := mul_nonneg hgamma (sub_nonneg.mpr (not_lt.mp hxp))
    linarith

namespace Flattens
variable (h : Flattens x p)
include h

theorem step_sub_ne : p.step - x.step ≠ 0 := right_ne_zero_of_mul h.falls.ne

theorem slope_sub_ne : p.slope - x.slope ≠ 0 := left_ne_zero_of_mul h.flatter.ne'

theorem exists_secant : ∃ z, secant x.exact p.exact = number z ∧ Beyond x.step p.step z := by
  refine ⟨p.step + p.slope / (p.slope - x.slope) * (x.step - p.step), ?_, ?_⟩
  · simp [secant, number_div h.slope_sub_ne]
  · refine beyond_of_neg h.step_sub_ne ?_
    have := div_neg_of_neg_of_pos h.falls h.flatter
    rwa [mul_div_mul_right _ _ h.step_sub_ne] at this

/-- The minimizer of the cubic lies beyond the trial, and without one the bound does. -/
theorem exists_cubicBeyond {low high : Exact K} {bound : K}
    (hbound : (if x.step < p.step then high else low) = number bound)
    (hbeyond : Beyond x.step p.step bound) :
    ∃ z, cubicBeyond x.exact p.exact low high = number z ∧ Beyond x.step p.step z := by
  obtain ⟨t, ht⟩ := exists_theta h.step_sub_ne
  obtain ⟨gamma, hgamma, hroot⟩ := exists_cubicGamma t x.slope p.slope
  have hden := beyondDivisor_ne h.flatter hgamma
  unfold beyondDivisor at hden
  simp only [cubicBeyond, ht, End.exact_step, End.exact_slope, hroot, oriented_number, number_lt,
    decide_eq_true_eq, hbound]
  generalize (if x.step < p.step then -gamma else gamma) = g at hden ⊢
  simp only [number_sub, number_add, number_div hden, number_mul]
  split_ifs with hr
  · simp only [Bool.and_eq_true, decide_eq_true_eq, zero_eq, number_lt] at hr
    exact ⟨_, rfl, beyond_of_neg h.step_sub_ne hr.1⟩
  · exact ⟨bound, rfl, hbeyond⟩

end Flattens

/-- The trial after one that went on down, without a bracketed interval. -/
theorem exists_trialStep (hxp : x.step < p.step) (hx : x.slope < 0) (hp : p.slope < 0)
    (hle : p.value ≤ x.value) {low high : K} (hhigh : p.step < high) :
    ∃ z, trialStep x.exact y.exact p.exact false (number low) (number high) = number z ∧
      p.step < z := by
  have hsame : opposite p.exact.slope x.exact.slope = false := by
    simpa [opposite_number] using (mul_pos_of_neg_of_neg hp hx).le
  have hrise : ¬ x.exact.value < p.exact.value := not_lt.mpr hle
  rw [trialStep, if_neg hrise, hsame, if_neg Bool.false_ne_true]
  by_cases hflat : Scalar.abs p.exact.slope < Scalar.abs x.exact.slope
  · have hwidth : 0 < p.step - x.step := sub_pos.mpr hxp
    have hflattens : Flattens x p :=
      ⟨mul_neg_of_neg_of_pos hp hwidth, mul_pos (sub_pos.mpr (by
        simpa [abs_of_neg hx, abs_of_neg hp] using hflat)) hwidth⟩
    have hbound : (if x.step < p.step then number high else number low) = number high := if_pos hxp
    obtain ⟨c, hc, hcp⟩ := hflattens.exists_cubicBeyond hbound ((beyond_iff_of_lt hxp).mpr hhigh)
    obtain ⟨z, hz, hzp⟩ := hflattens.exists_secant
    rw [beyond_iff_of_lt hxp] at hcp hzp
    rw [if_pos hflat, stepFlattening, hc, hz, if_neg Bool.false_ne_true]
    split_ifs
    · exact ⟨_, clamp_number, lt_min (lt_max_of_lt_left hcp) hhigh⟩
    · exact ⟨_, clamp_number, lt_min (lt_max_of_lt_left hzp) hhigh⟩
  · rw [if_neg hflat, stepOnward, if_neg Bool.false_ne_true]
    exact ⟨high, if_pos (number_lt.mpr hxp), hhigh⟩

end Downhill.MoreThuente
