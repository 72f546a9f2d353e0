import Downhill.Proofs.Exact.Root
import Downhill.Proofs.LineSearch.MoreThuente.Interval
import Downhill.Proofs.LineSearch.MoreThuente.Extrapolation

/-! The cubic step between two ends. Where the function falls from one end towards another that is
no lower, the formula gives a number strictly between the two, and no divisor on the way to it is zero.
Every cubic step into a bracketed interval is of this kind, seen from the lower end. -/
namespace Downhill.MoreThuente
variable {K : Type} [ExactField K]

open Exact

section Root
variable {theta a b : K}

theorem cubicGamma_comm (theta a b : K) : cubicGamma (number theta) (number a) (number b) =
    cubicGamma (number theta) (number b) (number a) := by
  rw [cubicGamma_number, cubicGamma_number, max_right_comm]
  simp only [mul_comm (b / _)]

/-- The scaling of the discriminant does no harm where roots of squares are right. -/
theorem cubicGamma_of_mul_self [SquareRoot K] {c : K} (hc : 0 ≤ c)
    (h : max 0 (theta * theta - a * b) = c * c) :
    cubicGamma (number theta) (number a) (number b) = number c := by
  rw [cubicGamma_number]
  have htheta : |theta| ≤ max (max |theta| |a|) |b| := (le_max_left _ _).trans (le_max_left _ _)
  have hb : |b| ≤ max (max |theta| |a|) |b| := le_max_right _ _
  generalize max (max |theta| |a|) |b| = scale at htheta hb ⊢
  refine congrArg number ?_
  rcases ((abs_nonneg b).trans hb).eq_or_lt with rfl | hscale
  · have hzero : theta * theta - a * b = 0 := by
      rw [abs_nonpos_iff.mp htheta, abs_nonpos_iff.mp hb, mul_zero, mul_zero, sub_zero]
    rw [hzero, max_self] at h
    rw [zero_mul, mul_self_eq_zero.mp h.symm]
  · have hquotient : max 0 (theta / scale * (theta / scale) - a / scale * (b / scale)) =
        c / scale * (c / scale) := by
      rw [div_mul_div_comm, div_mul_div_comm, div_mul_div_comm, ← sub_div, ← h,
        ← max_div_div_right (mul_self_nonneg scale), zero_div]
    rw [hquotient, SquareRoot.root_mul_self _ (div_nonneg hc hscale.le),
      mul_div_cancel₀ _ hscale.ne']

theorem cubicGamma_eq_root [TrueRoot K] : cubicGamma (number theta) (number a) (number b) =
    number (ExactField.root (max 0 (theta * theta - a * b))) :=
  cubicGamma_of_mul_self (ExactField.root_nonneg _)
    (TrueRoot.root_mul_root _ (le_max_left _ _)).symm

theorem le_mul_self_of_cubicGamma [TrueRoot K] {gamma : K}
    (h : cubicGamma (number theta) (number a) (number b) = number gamma) :
    0 ≤ gamma ∧ theta * theta - a * b ≤ gamma * gamma := by
  obtain rfl := number.inj (cubicGamma_eq_root.symm.trans h)
  rw [TrueRoot.root_mul_root _ (le_max_left _ _)]
  exact ⟨ExactField.root_nonneg _, le_max_right _ _⟩

end Root

variable {a b : End K}

/-- The middle coefficient of the cubic through two ends. -/
def middle (a b : End K) : K :=
  3.0 * (a.value - b.value) / (b.step - a.step) + a.slope + b.slope

/-- The root of the discriminant of its slope, with the sign of the way from `a` to `b`. -/
def rootToward (a b : End K) : K :=
  let root := ExactField.root (max 0 (middle a b * middle a b - a.slope * b.slope))
  if b.step < a.step then -root else root

def shareDivisor (a b : End K) : K := rootToward a b - a.slope + rootToward a b + b.slope

/-- The share of the way from `a` to `b` after which the cubic step ends. -/
def cubicShare (a b : End K) : K := (rootToward a b - a.slope + middle a b) / shareDivisor a b

theorem middle_comm (a b : End K) : middle a b = middle b a := by
  have hsign : 3.0 * (b.value - a.value) / (a.step - b.step) =
      3.0 * (a.value - b.value) / (b.step - a.step) := by
    rw [← neg_sub a.value, ← neg_sub b.step, mul_neg, neg_div_neg_eq]
  rw [middle, middle, hsign, add_right_comm]

theorem middle_mul (h : b.step ≠ a.step) : middle a b * (b.step - a.step) =
    3 * (a.value - b.value) + (a.slope + b.slope) * (b.step - a.step) := by
  have hthree : (3.0 : K) = 3 := by norm_num
  rw [middle, hthree, add_assoc, add_mul, div_mul_cancel₀ _ (sub_ne_zero.mpr h)]

theorem theta_exact (h : b.step ≠ a.step) : theta a.exact b.exact = number (middle a b) := by
  simp [theta, middle, number_div (sub_ne_zero.mpr h)]

/-- The cubic step seen from the end that it leads towards is the one seen from the other end. -/
theorem cubicToward_middle (h : b.step ≠ a.step) :
    cubicToward (number (middle a b)) b.exact a.exact = cubicFrom a.exact b.exact := by
  rw [cubicToward, cubicFrom, theta_exact h, End.exact_slope, End.exact_slope, cubicGamma_comm]

theorem cubicFrom_exact [TrueRoot K] (h : b.step ≠ a.step) (hden : shareDivisor a b ≠ 0) :
    cubicFrom a.exact b.exact = number (a.step + cubicShare a b * (b.step - a.step)) := by
  have hroot : oriented (decide (b.exact.step < a.exact.step))
      (cubicGamma (number (middle a b)) (number a.slope) (number b.slope)) =
      number (rootToward a b) := by
    simp [cubicGamma_eq_root, oriented_number, rootToward]
  unfold shareDivisor at hden
  simp only [cubicFrom, theta_exact h, End.exact_slope, hroot]
  simp only [End.exact_step, number_sub, number_add, number_div hden, number_mul, cubicShare,
    shareDivisor]

/-- What goes into the share and what is left of it are positive: `A` and `B` are the slopes at both
ends, `T` the middle coefficient and `G` the root, all times the way from one end to the other. -/
theorem shares_pos {A B T G : K} (hA : A < 0) (hT : T ≤ A + B) (hG : 0 < G)
    (hsq : G * G = T * T - A * B) : 0 < G - A + T ∧ 0 < G - T + B := by
  rcases lt_or_ge B 0 with hB | hB
  · refine ⟨?_, by linarith⟩
    have hgap : 0 < A * (2 * T - A - B) := mul_pos_of_neg_of_neg hA (by linarith)
    have : A - T < G := lt_of_mul_self_lt_mul_self₀ hG.le (by linarith)
    linarith
  · have hle : |T| ≤ |G| := by
      have := mul_nonpos_of_nonpos_of_nonneg hA.le hB
      exact abs_le_iff_mul_self_le.mpr (by linarith)
    rw [abs_of_pos hG, abs_le] at hle
    refine ⟨by linarith, ?_⟩
    rcases lt_or_ge T 0 with hneg | hnonneg <;> linarith

theorem discriminant_pos {A B T : K} (hA : A < 0) (hT : T ≤ A + B) : 0 < T * T - A * B := by
  rcases lt_or_ge 0 B with hB | hB
  · have := mul_neg_of_neg_of_pos hA hB
    linarith [mul_self_nonneg T]
  · have hsum : A + B < 0 := by linarith
    have hsquare : 0 ≤ (T - (A + B)) * (T + (A + B)) :=
      mul_nonneg_of_nonpos_of_nonpos (sub_nonpos.mpr hT) (by linarith)
    have := mul_nonneg_of_nonpos_of_nonpos hA.le hB
    linarith [mul_pos_of_neg_of_neg hA hA, mul_self_nonneg B]

/-- The function falls from `a` towards `b` and is no lower there, so it has a minimizer between. -/
structure Dips (a b : End K) : Prop where
  falls : a.slope * (b.step - a.step) < 0
  le : a.value ≤ b.value

namespace Dips
variable (h : Dips a b)
include h

theorem way_ne : b.step - a.step ≠ 0 := right_ne_zero_of_mul h.falls.ne

theorem step_ne : b.step ≠ a.step := sub_ne_zero.mp h.way_ne

theorem middle_mul_le : middle a b * (b.step - a.step) ≤
    a.slope * (b.step - a.step) + b.slope * (b.step - a.step) := by
  linarith [middle_mul h.step_ne, h.le]

theorem discriminant_pos : 0 < middle a b * middle a b - a.slope * b.slope := by
  have hscaled := MoreThuente.discriminant_pos h.falls h.middle_mul_le
  refine (mul_pos_iff_of_pos_right (mul_self_pos.mpr h.way_ne)).mp ?_
  linarith

variable [TrueRoot K]

theorem rootToward_mul_self :
    rootToward a b * rootToward a b = middle a b * middle a b - a.slope * b.slope := by
  have hroot := TrueRoot.root_mul_root _ h.discriminant_pos.le
  rw [rootToward, max_eq_right h.discriminant_pos.le]
  split_ifs
  · rwa [neg_mul_neg]
  · exact hroot

theorem rootToward_mul_pos : 0 < rootToward a b * (b.step - a.step) := by
  have hroot := SoundRoot.root_pos _ h.discriminant_pos
  rw [rootToward, max_eq_right h.discriminant_pos.le]
  split_ifs with hlt
  · exact mul_pos_of_neg_of_neg (neg_neg_of_pos hroot) (sub_neg.mpr hlt)
  · exact mul_pos hroot (sub_pos.mpr (lt_of_le_of_ne (not_lt.mp hlt) h.step_ne.symm))

theorem shares_pos : 0 < (rootToward a b - a.slope + middle a b) * (b.step - a.step) ∧
    0 < (rootToward a b - middle a b + b.slope) * (b.step - a.step) := by
  have hsq : rootToward a b * (b.step - a.step) * (rootToward a b * (b.step - a.step)) =
      middle a b * (b.step - a.step) * (middle a b * (b.step - a.step)) -
        a.slope * (b.step - a.step) * (b.slope * (b.step - a.step)) := by
    linear_combination (b.step - a.step) * (b.step - a.step) * h.rootToward_mul_self
  obtain ⟨hleft, hright⟩ :=
    MoreThuente.shares_pos h.falls h.middle_mul_le h.rootToward_mul_pos hsq
  constructor <;> linarith

theorem shareDivisor_mul_pos : 0 < shareDivisor a b * (b.step - a.step) := by
  obtain ⟨hleft, hright⟩ := h.shares_pos
  unfold shareDivisor
  linarith

theorem shareDivisor_ne : shareDivisor a b ≠ 0 := left_ne_zero_of_mul h.shareDivisor_mul_pos.ne'

theorem cubicShare_pos : 0 < cubicShare a b := by
  have := div_pos h.shares_pos.1 h.shareDivisor_mul_pos
  rwa [mul_div_mul_right _ _ h.way_ne] at this

theorem cubicShare_lt_one : cubicShare a b < 1 := by
  have hlt : (rootToward a b - a.slope + middle a b) * (b.step - a.step) <
      shareDivisor a b * (b.step - a.step) := by
    have := h.shares_pos.2
    unfold shareDivisor
    linarith
  have := (div_lt_one h.shareDivisor_mul_pos).mpr hlt
  rwa [mul_div_mul_right _ _ h.way_ne] at this

end Dips

theorem between_of_share {a b r : K} (h : b - a ≠ 0) (hpos : 0 < r) (hlt : r < 1) :
    Between a b (a + r * (b - a)) := by
  rcases lt_or_gt_of_ne h with hneg | hpos'
  · have := mul_neg_of_pos_of_neg hpos hneg
    have := mul_neg_of_pos_of_neg (sub_pos.mpr hlt) hneg
    exact .inr ⟨by linarith, by linarith⟩
  · have := mul_pos hpos hpos'
    have := mul_pos (sub_pos.mpr hlt) hpos'
    exact .inl ⟨by linarith, by linarith⟩

theorem Dips.exists_cubicFrom [TrueRoot K] (h : Dips a b) :
    ∃ t, cubicFrom a.exact b.exact = number t ∧ Between a.step b.step t :=
  ⟨_, cubicFrom_exact h.step_ne h.shareDivisor_ne,
    between_of_share h.way_ne h.cubicShare_pos h.cubicShare_lt_one⟩

end Downhill.MoreThuente
