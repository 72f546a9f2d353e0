import Downhill.Proofs.LineSearch.Interpolant
import Downhill.Proofs.LineSearch.MoreThuente.Safeguard

/-! The cubic step is where the interpolating cubic has its minimum. One polynomial of degree at
most three has the values and the slopes of two ends. Where it falls from one end towards another that is
no lower it has one local minimum, and the share of the way that the formula gives leads there. -/
namespace Downhill.MoreThuente

open Exact Polynomial

section Field
variable {K : Type} [ExactField K] {a b : End K} {P : K[X]}

/-- A polynomial of degree at most three with the values and the slopes of two ends. -/
structure Joins (P : K[X]) (a b : End K) : Prop where
  degree : P.natDegree ≤ 3
  left_value : P.eval a.step = a.value
  left_slope : P.derivative.eval a.step = a.slope
  right_value : P.eval b.step = b.value
  right_slope : P.derivative.eval b.step = b.slope

theorem Joins.symm (h : Joins P a b) : Joins P b a :=
  ⟨h.degree, h.right_value, h.right_slope, h.left_value, h.left_slope⟩

theorem joins_comm : Joins P a b ↔ Joins P b a := ⟨.symm, .symm⟩

/-- The cubic through two ends, expanded about the first. -/
noncomputable def cubicThrough (a b : End K) : K[X] :=
  Interpolant.expansion a.step a.value a.slope (-(a.slope + middle a b) / (b.step - a.step))
    ((a.slope + b.slope + (middle a b + middle a b)) / (3.0 * (b.step - a.step) ^ 2))

theorem cubicThrough_eq : cubicThrough a b =
    Interpolant.expansion a.step a.value a.slope (-(a.slope + middle a b) / (b.step - a.step))
      ((a.slope + b.slope + 2 * middle a b) / (3 * (b.step - a.step) ^ 2)) := by
  have hthree : (3.0 : K) = 3 := by norm_num
  rw [cubicThrough, hthree, ← two_mul]

theorem joins_cubicThrough (h : b.step ≠ a.step) : Joins (cubicThrough a b) a b := by
  have hway : b.step - a.step ≠ 0 := sub_ne_zero.mpr h
  refine ⟨Interpolant.natDegree_expansion_le .., by simp [cubicThrough_eq],
    by simp [cubicThrough_eq], ?_, ?_⟩
  · have hmiddle := middle_mul h
    simp only [cubicThrough_eq, Interpolant.eval_expansion]
    field_simp
    linear_combination -hmiddle
  · simp only [cubicThrough_eq, Interpolant.derivative_expansion, Interpolant.eval_expansion]
    field_simp
    ring

/-- Values and slopes at both ends leave one polynomial. -/
theorem joins_iff (h : b.step ≠ a.step) : Joins P a b ↔ P = cubicThrough a b := by
  refine ⟨fun hP => ?_, fun hP => hP ▸ joins_cubicThrough h⟩
  have hway : b.step - a.step ≠ 0 := sub_ne_zero.mpr h
  have hmiddle := middle_mul h
  obtain ⟨second, third, hexpand⟩ := Interpolant.exists_expansion a.step P hP.degree
  have hvalue := hP.right_value
  have hslope := hP.right_slope
  rw [hexpand, Interpolant.eval_expansion, hP.left_value, hP.left_slope] at hvalue
  rw [hexpand, Interpolant.derivative_expansion, Interpolant.eval_expansion, hP.left_slope]
    at hslope
  have hsecond : second = -(a.slope + middle a b) / (b.step - a.step) := by
    rw [eq_div_iff hway]
    refine mul_right_cancel₀ hway ?_
    linear_combination hmiddle + 3 * hvalue - (b.step - a.step) * hslope
  have hthird : third = (a.slope + b.slope + 2 * middle a b) / (3 * (b.step - a.step) ^ 2) := by
    rw [eq_div_iff (by positivity)]
    refine mul_right_cancel₀ hway ?_
    linear_combination -2 * hmiddle - 6 * hvalue + 3 * (b.step - a.step) * hslope
  rw [hexpand, hP.left_value, hP.left_slope, hsecond, hthird, cubicThrough_eq]

namespace Dips
variable [TrueRoot K] (h : Dips a b)
include h

theorem cubicShare_mul_sub :
    cubicShare a b * (rootToward a b - (a.slope + middle a b)) = -a.slope := by
  rw [cubicShare, div_mul_eq_mul_div, div_eq_iff h.shareDivisor_ne, shareDivisor]
  linear_combination h.rootToward_mul_self

theorem mul_cubicShare : (a.slope + b.slope + 2 * middle a b) * cubicShare a b =
    a.slope + middle a b + rootToward a b := by
  rw [cubicShare, mul_div_assoc', div_eq_iff h.shareDivisor_ne, shareDivisor]
  linear_combination -2 * h.rootToward_mul_self

theorem slope_at_share : (derivative (cubicThrough a b)).eval
    (a.step + cubicShare a b * (b.step - a.step)) = 0 := by
  have hway := h.way_ne
  simp only [cubicThrough_eq, Interpolant.derivative_expansion, Interpolant.eval_expansion,
    add_sub_cancel_left]
  field_simp
  linear_combination cubicShare a b * h.mul_cubicShare + h.cubicShare_mul_sub

theorem curvature_at_share : (derivative (derivative (cubicThrough a b))).eval
    (a.step + cubicShare a b * (b.step - a.step)) = 2 * rootToward a b / (b.step - a.step) := by
  have hway := h.way_ne
  simp only [cubicThrough_eq, Interpolant.derivative_expansion, Interpolant.eval_expansion,
    add_sub_cancel_left]
  field_simp
  linear_combination 2 * h.mul_cubicShare

theorem curvature_pos : 0 < 2 * rootToward a b / (b.step - a.step) := by
  have := div_pos (mul_pos two_pos h.rootToward_mul_pos) (mul_self_pos.mpr h.way_ne)
  rwa [← mul_assoc, mul_div_mul_right _ _ h.way_ne] at this

end Dips

end Field

section Real
variable {a b x y p : End ℝ} {t : ℝ}

/-- At `t` the polynomial that joins two ends has its minimum: there is one such polynomial, and it
has no other local minimum. -/
def MinimizesCubic (a b : End ℝ) (t : ℝ) : Prop :=
  ∃ P : ℝ[X], (∀ Q, Joins Q a b ↔ Q = P) ∧ ∀ s, IsLocalMin (fun u => P.eval u) s ↔ s = t

theorem MinimizesCubic.symm (h : MinimizesCubic a b t) : MinimizesCubic b a t := by
  obtain ⟨P, hP, hmin⟩ := h
  exact ⟨P, fun Q => joins_comm.trans (hP Q), hmin⟩

theorem Dips.exists_minimizesCubic (h : Dips a b) :
    ∃ t, cubicFrom a.exact b.exact = number t ∧ MinimizesCubic a b t := by
  refine ⟨_, cubicFrom_exact h.step_ne h.shareDivisor_ne, cubicThrough a b,
    fun Q => joins_iff h.step_ne, fun s => ?_⟩
  refine Interpolant.isLocalMin_iff (joins_cubicThrough h.step_ne).degree h.slope_at_share ?_
  rw [h.curvature_at_share]
  exact h.curvature_pos

/-- Seen from the other end. -/
theorem Dips.exists_minimizesCubic_toward (h : Dips a b) :
    ∃ t, cubicToward (number (middle a b)) b.exact a.exact = number t ∧ MinimizesCubic a b t := by
  rw [cubicToward_middle h.step_ne]
  exact h.exists_minimizesCubic

/-- The cubic step is the minimizer of the cubic. Let the function fall from the best end towards
the trial. Where the trial is higher, and where it is not but the slopes are opposite, the candidate of
the cubic is the one local minimum of the polynomial through the best end and the trial. Where the
slope keeps its sign and does not flatten, in a bracketed interval whose other end lies ahead and is
no lower, the step is the one local minimum of the polynomial through the trial and that end. The
scaling leaves the root of the discriminant what it is. -/
theorem cubicStep_minimizes (hfalls : x.slope * (p.step - x.step) < 0) :
    (x.value < p.value →
      ∃ t, cubicFrom x.exact p.exact = number t ∧ MinimizesCubic x p t) ∧
    (p.value ≤ x.value → p.slope * x.slope < 0 →
      ∃ t, cubicToward (theta x.exact p.exact) x.exact p.exact = number t ∧
        MinimizesCubic x p t) ∧
    (p.value ≤ x.value → 0 ≤ p.slope * x.slope → |x.slope| ≤ |p.slope| →
      p.slope * (y.step - p.step) < 0 → p.value ≤ y.value →
      ∀ low high, ∃ t, trialStep x.exact y.exact p.exact true low high = number t ∧
        MinimizesCubic p y t) ∧
    ∀ m d1 d2 : ℝ, cubicGamma (number m) (number d1) (number d2) =
      number (Real.sqrt (max 0 (m ^ 2 - d1 * d2))) := by
  refine ⟨fun hrise => ?_, fun hle hopp => ?_, fun hle hsame hsteep hahead hother low high => ?_,
    fun m d1 d2 => ?_⟩
  · exact Dips.exists_minimizesCubic ⟨hfalls, hrise.le⟩
  · have hup := mul_pos_of_opposite hfalls hopp
    have hdips : Dips p x := ⟨by linarith, hle⟩
    rw [theta_exact hdips.step_ne.symm, middle_comm]
    obtain ⟨t, ht, hmin⟩ := hdips.exists_minimizesCubic_toward
    exact ⟨t, ht, hmin.symm⟩
  · have hdips : Dips p y := ⟨hahead, hother⟩
    have hsign : opposite p.exact.slope x.exact.slope = false := by
      simpa [opposite_number] using hsame
    rw [trialStep_onward hle hsign, if_neg hsteep.not_gt, stepOnward, if_pos rfl,
      theta_onward hdips.step_ne]
    exact hdips.exists_minimizesCubic_toward
  · rw [cubicGamma_eq_root, sq]
    rfl

/-- A higher trial to the left, slopes of opposite sign to the right, and a step onward. -/
theorem cubicStep_minimizes_each_way :
    let x : End ℝ := ⟨0, 0, -1⟩
    let y : End ℝ := ⟨3, 0, 2⟩
    let p : End ℝ := ⟨1, -1, -1⟩
    let up : End ℝ := ⟨-1, 1, 2⟩
    let across : End ℝ := ⟨1, -1, 2⟩
    let left : End ℝ := ⟨0, 0, 1⟩
    (∃ t, cubicFrom left.exact up.exact = number t ∧ MinimizesCubic left up t) ∧
    (∃ t, cubicToward (theta x.exact across.exact) x.exact across.exact = number t ∧
      MinimizesCubic x across t) ∧
    ∃ t, trialStep x.exact y.exact p.exact true (number 0) (number 3) = number t ∧
      MinimizesCubic p y t := by
  intro x y p up across left
  have hup := cubicStep_minimizes (x := left) (y := y) (p := up) (by norm_num [left, up])
  have hacross := cubicStep_minimizes (x := x) (y := y) (p := across) (by norm_num [x, across])
  have honward := cubicStep_minimizes (x := x) (y := y) (p := p) (by norm_num [x, p])
  exact ⟨hup.1 (by norm_num [left, up]),
    hacross.2.1 (by norm_num [x, across]) (by norm_num [x, across]),
    honward.2.2.1 (by norm_num [x, p]) (by norm_num [x, p]) (by norm_num [x, p])
      (by norm_num [y, p]) (by norm_num [y, p]) _ _⟩

end Real

end Downhill.MoreThuente
