import Downhill.Proofs.Exact.Root
import Downhill.Proofs.LineSearch.Faults
import Downhill.Proofs.LineSearch.Interpolant

/-! The polynomials that a backtracking search interpolates with have the minimizers that it
computes. From a start where the function falls, a quadratic has one exactly where it is curved
upwards; a cubic has one positive point, or none, where its slope vanishes and it is not curved
downwards, and the formula finds it whatever the sign of the leading coefficient. -/
namespace Downhill.Interpolation

open Exact Polynomial

variable {K : Type} [ExactField K] {f0 slope alpha f a0 fa0 a1 fa1 a b t u : K}

section Polynomials
variable {q p : K[X]}

/-- A quadratic with this value and slope at the start and this value at one trial. -/
structure FitsOne (q : K[X]) (f0 slope alpha f : K) : Prop where
  degree : q.natDegree ≤ 2
  start_value : q.eval 0 = f0
  start_slope : q.derivative.eval 0 = slope
  trial_value : q.eval alpha = f

/-- A cubic, or less, with this value and slope at the start and these values at two trials. -/
structure FitsTwo (p : K[X]) (f0 slope a0 fa0 a1 fa1 : K) : Prop where
  degree : p.natDegree ≤ 3
  start_value : p.eval 0 = f0
  start_slope : p.derivative.eval 0 = slope
  first_value : p.eval a0 = fa0
  second_value : p.eval a1 = fa1

/-- How far a trial lies above the tangent at the start. -/
def gap (f0 slope alpha f : K) : K := f - f0 - slope * alpha

noncomputable def quadraticThrough (f0 slope alpha f : K) : K[X] :=
  Interpolant.expansion 0 f0 slope (gap f0 slope alpha f / alpha ^ 2) 0

theorem fitsOne_iff (h : alpha ≠ 0) :
    FitsOne q f0 slope alpha f ↔ q = quadraticThrough f0 slope alpha f := by
  constructor
  · intro hq
    obtain ⟨second, hexpand⟩ := Interpolant.exists_expansion_zero 0 q hq.degree
    have hvalue := hq.trial_value
    rw [hexpand, Interpolant.eval_expansion, hq.start_value, hq.start_slope] at hvalue
    have hsecond : second = gap f0 slope alpha f / alpha ^ 2 := by
      rw [eq_div_iff (pow_ne_zero 2 h), gap]
      linear_combination hvalue
    rw [hexpand, hq.start_value, hq.start_slope, hsecond, quadraticThrough]
  · rintro rfl
    refine ⟨Interpolant.natDegree_expansion_zero_le .., by simp [quadraticThrough],
      by simp [quadraticThrough], ?_⟩
    simp only [quadraticThrough, Interpolant.eval_expansion, gap]
    field_simp
    ring

/-- The divisor of both coefficients of the cubic. -/
def spread (a0 a1 : K) : K := a0 * a0 * (a1 * a1) * (a1 - a0)

def thirdCoefficient (f0 slope a0 fa0 a1 fa1 : K) : K :=
  (a0 * a0 * gap f0 slope a1 fa1 - a1 * a1 * gap f0 slope a0 fa0) / spread a0 a1

def secondCoefficient (f0 slope a0 fa0 a1 fa1 : K) : K :=
  (-(a0 * a0 * a0) * gap f0 slope a1 fa1 + a1 * a1 * a1 * gap f0 slope a0 fa0) / spread a0 a1

noncomputable def cubicThrough (f0 slope a0 fa0 a1 fa1 : K) : K[X] :=
  Interpolant.expansion 0 f0 slope (secondCoefficient f0 slope a0 fa0 a1 fa1)
    (thirdCoefficient f0 slope a0 fa0 a1 fa1)

theorem spread_ne (h0 : a0 ≠ 0) (h1 : a1 ≠ 0) (h : a0 ≠ a1) : spread a0 a1 ≠ 0 :=
  mul_ne_zero (mul_ne_zero (mul_ne_zero h0 h0) (mul_ne_zero h1 h1)) (sub_ne_zero.mpr h.symm)

theorem fitsTwo_iff (h : spread a0 a1 ≠ 0) :
    FitsTwo p f0 slope a0 fa0 a1 fa1 ↔ p = cubicThrough f0 slope a0 fa0 a1 fa1 := by
  constructor
  · intro hp
    obtain ⟨second, third, hexpand⟩ := Interpolant.exists_expansion 0 p hp.degree
    have hfirst := hp.first_value
    have hlast := hp.second_value
    rw [hexpand, Interpolant.eval_expansion, hp.start_value, hp.start_slope] at hfirst hlast
    have hsecond : second = secondCoefficient f0 slope a0 fa0 a1 fa1 := by
      rw [secondCoefficient, eq_div_iff h, spread, gap, gap]
      linear_combination a1 * a1 * a1 * hfirst - a0 * a0 * a0 * hlast
    have hthird : third = thirdCoefficient f0 slope a0 fa0 a1 fa1 := by
      rw [thirdCoefficient, eq_div_iff h, spread, gap, gap]
      linear_combination a0 * a0 * hlast - a1 * a1 * hfirst
    rw [hexpand, hp.start_value, hp.start_slope, hsecond, hthird, cubicThrough]
  · rintro rfl
    refine ⟨Interpolant.natDegree_expansion_le .., by simp [cubicThrough], by simp [cubicThrough],
      ?_, ?_⟩
    all_goals
      simp only [cubicThrough, Interpolant.eval_expansion, secondCoefficient, thirdCoefficient,
        sub_zero]
      refine mul_right_cancel₀ h ?_
      field_simp
      simp only [spread, gap]
      ring

end Polynomials

/-- A computation that comes to the one number with a property, or to none if there is none. -/
def Finds (r : Except (Fault (Exact K)) (Option (Exact K))) (P : K → Prop) : Prop :=
  ∃ result : Option K, r = .ok (result.map number) ∧ ∀ t, result = some t ↔ P t

namespace Finds
variable {r : Except (Fault (Exact K)) (Option (Exact K))} {P : K → Prop} (h : Finds r P)
include h

omit [ExactField K]

theorem some_iff (t : K) : r = .ok (some (number t)) ↔ P t := by
  obtain ⟨result, rfl, hresult⟩ := h
  rw [← hresult]
  cases result <;> simp

theorem none_iff : r = .ok none ↔ ¬ ∃ t, P t := by
  obtain ⟨result, rfl, hresult⟩ := h
  simp only [← hresult]
  cases result <;> simp

theorem unique (ht : P t) (hu : P u) : t = u := by
  obtain ⟨result, -, hresult⟩ := h
  exact Option.some.inj (((hresult t).mpr ht).symm.trans ((hresult u).mpr hu))

end Finds

theorem usable_number : usable (number t) = if 0 < t then some (number t) else none := by
  simp [usable]

theorem usable_of_pos (h : 0 < t) : usable (number t) = some (number t) := by
  rw [usable_number, if_pos h]

section Quadratic
variable {second : K}

/-- A parabola that opens upwards has its minimum at its vertex. -/
theorem isMinimizer_iff_vertex (h : 0 < second) :
    (∀ s, f0 + slope * t + second * t ^ 2 ≤ f0 + slope * s + second * s ^ 2) ↔
      t = -slope / (2 * second) := by
  have hvertex : 2 * second * (-slope / (2 * second)) = -slope :=
    mul_div_cancel₀ _ (by positivity)
  generalize -slope / (2 * second) = vertex at hvertex ⊢
  constructor
  · intro hmin
    have hsquare : second * (t - vertex) ^ 2 ≤ 0 := by
      linear_combination hmin vertex - (t - vertex) * hvertex
    have hzero := nonpos_of_mul_nonpos_right hsquare h
    exact sub_eq_zero.mp (sq_nonpos_iff _ |>.mp hzero)
  · rintro rfl s
    have hsquare := mul_nonneg h.le (sq_nonneg (s - t))
    linear_combination hsquare - (s - t) * hvertex

/-- One that does not falls below every bound. -/
theorem exists_below (f0 : K) (hslope : slope < 0) (h : second ≤ 0) (bound : K) :
    ∃ s, f0 + slope * s + second * s ^ 2 < bound := by
  have hneg : 0 < -slope := neg_pos.mpr hslope
  refine ⟨|f0 - bound| / -slope + 1, ?_⟩
  have hline : slope * (|f0 - bound| / -slope + 1) = slope - |f0 - bound| := by
    rw [mul_add, mul_one, div_neg, mul_neg, mul_div_cancel₀ _ hslope.ne, neg_add_eq_sub]
  have hcurve : second * (|f0 - bound| / -slope + 1) ^ 2 ≤ 0 :=
    mul_nonpos_of_nonpos_of_nonneg h (sq_nonneg _)
  linarith [le_abs_self (f0 - bound)]

theorem quadraticMinimizer_of_nonpos (h : gap f0 slope alpha f ≤ 0) :
    quadraticMinimizer (number f0) (number slope) (number alpha) (number f) = .ok none := by
  simp only [quadraticMinimizer, number_sub, number_mul, zero_eq, number_le]
  exact if_pos h

theorem quadraticMinimizer_of_pos (hslope : slope < 0) (halpha : 0 < alpha)
    (h : 0 < gap f0 slope alpha f) :
    quadraticMinimizer (number f0) (number slope) (number alpha) (number f) =
      .ok (some (number (-slope / (2 * (gap f0 slope alpha f / alpha ^ 2))))) := by
  have htwo : (2.0 : K) * gap f0 slope alpha f ≠ 0 := mul_ne_zero (by norm_num) h.ne'
  have hstep : -slope * (alpha * alpha) / (2.0 * gap f0 slope alpha f) =
      -slope / (2 * (gap f0 slope alpha f / alpha ^ 2)) := by
    norm_num
    field_simp
  have hpos : 0 < -slope / (2 * (gap f0 slope alpha f / alpha ^ 2)) := by
    have := neg_pos.mpr hslope
    positivity
  simp only [quadraticMinimizer, square_eq, number_sub, number_mul, zero_eq, number_le, number_neg,
    ofScientific_eq, bind, Except.bind]
  rw [← gap, if_neg h.not_ge, number_div htwo, hstep]
  exact congrArg Except.ok (usable_of_pos hpos)

theorem finds_quadraticMinimizer (f0 f : K) (hslope : slope < 0) (halpha : 0 < alpha) :
    Finds (quadraticMinimizer (number f0) (number slope) (number alpha) (number f)) fun t =>
      ∀ s, (quadraticThrough f0 slope alpha f).eval t ≤
        (quadraticThrough f0 slope alpha f).eval s := by
  simp only [quadraticThrough, Interpolant.eval_expansion, sub_zero, zero_mul, add_zero]
  rcases le_or_gt (gap f0 slope alpha f) 0 with h | h
  · refine ⟨none, quadraticMinimizer_of_nonpos h, fun t => ⟨nofun, fun hmin => ?_⟩⟩
    have hsecond : gap f0 slope alpha f / alpha ^ 2 ≤ 0 :=
      div_nonpos_of_nonpos_of_nonneg h (sq_nonneg alpha)
    obtain ⟨s, hs⟩ := exists_below f0 hslope hsecond _
    exact absurd (hmin s) hs.not_ge
  · refine ⟨some _, quadraticMinimizer_of_pos hslope halpha h, fun t => ?_⟩
    rw [Option.some_inj, eq_comm]
    exact (isMinimizer_iff_vertex (by positivity)).symm

/-- Without a minimizer the quadratic has no lower bound. -/
theorem quadratic_unbounded (hslope : slope < 0) (halpha : 0 < alpha)
    (h : ¬ ∃ t, ∀ s, (quadraticThrough f0 slope alpha f).eval t ≤
      (quadraticThrough f0 slope alpha f).eval s) (bound : K) :
    ∃ s, (quadraticThrough f0 slope alpha f).eval s < bound := by
  have hnone := (finds_quadraticMinimizer f0 f hslope halpha).none_iff.mpr h
  have hgap : gap f0 slope alpha f ≤ 0 := by
    by_contra hpos
    rw [quadraticMinimizer_of_pos hslope halpha (not_le.mp hpos)] at hnone
    cases hnone
  obtain ⟨s, hs⟩ := exists_below f0 hslope
    (div_nonpos_of_nonpos_of_nonneg hgap (sq_nonneg alpha)) bound
  exact ⟨s, by simpa [quadraticThrough] using hs⟩

end Quadratic

/-- A positive point where the slope vanishes and the polynomial is not curved downwards. -/
structure Settles (p : K[X]) (t : K) : Prop where
  pos : 0 < t
  slope : p.derivative.eval t = 0
  curvature : 0 ≤ p.derivative.derivative.eval t

section Cubic

theorem settles_expansion_iff : Settles (Interpolant.expansion 0 f0 slope b a) t ↔
    0 < t ∧ slope + 2 * b * t + 3 * a * t ^ 2 = 0 ∧ 0 ≤ 2 * b + 6 * a * t := by
  constructor
  · rintro ⟨hpos, hslope, hcurvature⟩
    simp only [Interpolant.derivative_expansion, Interpolant.eval_expansion] at hslope hcurvature
    exact ⟨hpos, by linear_combination hslope, by linear_combination hcurvature⟩
  · rintro ⟨hpos, hslope, hcurvature⟩
    refine ⟨hpos, ?_, ?_⟩
    all_goals simp only [Interpolant.derivative_expansion, Interpolant.eval_expansion]
    · linear_combination hslope
    · linear_combination hcurvature

/-- Where the leading coefficient is zero, the vertex of a parabola. -/
theorem settles_affine_iff (hslope : slope < 0) (ha : a = 0) :
    (0 < t ∧ slope + 2 * b * t + 3 * a * t ^ 2 = 0 ∧ 0 ≤ 2 * b + 6 * a * t) ↔
      0 < b ∧ t = -slope / (2 * b) := by
  subst ha
  simp only [mul_zero, zero_mul, add_zero]
  constructor
  · rintro ⟨-, hroot, hb⟩
    have hne : b ≠ 0 := by
      rintro rfl
      linarith
    have hpos : 0 < b := lt_of_le_of_ne (by linarith) hne.symm
    exact ⟨hpos, (eq_div_iff (by positivity)).mpr (by linarith)⟩
  · rintro ⟨hb, rfl⟩
    have := neg_pos.mpr hslope
    refine ⟨by positivity, ?_, by positivity⟩
    field_simp
    ring

/-- Otherwise the root of the slope at which the curvature is the positive root of the
discriminant. -/
theorem stationary_iff [TrueRoot K] (ha : a ≠ 0) :
    (slope + 2 * b * t + 3 * a * t ^ 2 = 0 ∧ 0 ≤ 2 * b + 6 * a * t) ↔
      0 ≤ b * b - 3 * a * slope ∧
        t = (-b + ExactField.root (b * b - 3 * a * slope)) / (3 * a) := by
  have hthree : 3 * a ≠ 0 := mul_ne_zero three_ne_zero ha
  constructor
  · rintro ⟨hroot, hcurvature⟩
    have hsquare : b * b - 3 * a * slope = (b + 3 * a * t) * (b + 3 * a * t) := by
      linear_combination -3 * a * hroot
    rw [hsquare, SquareRoot.root_mul_self _ (by linarith), eq_div_iff hthree]
    exact ⟨mul_self_nonneg _, by ring⟩
  · rintro ⟨hdisc, ht⟩
    have hmul : t * (3 * a) = -b + ExactField.root (b * b - 3 * a * slope) :=
      (eq_div_iff hthree).mp ht
    have hsquare := TrueRoot.root_mul_root _ hdisc
    have hnonneg := ExactField.root_nonneg (b * b - 3 * a * slope)
    generalize ExactField.root (b * b - 3 * a * slope) = root at hmul hsquare hnonneg
    refine ⟨mul_right_cancel₀ hthree ?_, by linarith⟩
    linear_combination (b + t * (3 * a) + root) * hmul + hsquare

theorem exists_cubicStep [TrueRoot K] (hslope : slope < 0) : ∃ result : Option K,
    cubicStep (number slope) (number a) (number b) = result.map number ∧
      ∀ t, result = some t ↔
        0 < t ∧ slope + 2 * b * t + 3 * a * t ^ 2 = 0 ∧ 0 ≤ 2 * b + 6 * a * t := by
  have htwo : (2.0 : K) = 2 := by norm_num
  have hthree : (3.0 : K) = 3 := by norm_num
  simp only [cubicStep, zero_eq, number_beq, number_lt, ofScientific_eq, number_mul, number_sub,
    number_neg, decide_eq_true_eq, htwo, hthree]
  by_cases ha : a = 0
  · simp only [settles_affine_iff hslope ha, if_pos ha]
    by_cases hb : 0 < b
    · have hpos : 0 < -slope / (2 * b) := div_pos (neg_pos.mpr hslope) (by positivity)
      refine ⟨some (-slope / (2 * b)), ?_, fun t => by simp [hb, eq_comm]⟩
      rw [if_pos hb, number_div (by positivity), usable_of_pos hpos, Option.map_some]
    · exact ⟨none, if_neg hb, fun t => by simp [hb]⟩
  · simp only [stationary_iff ha, if_neg ha]
    by_cases hdisc : b * b - 3 * a * slope < 0
    · exact ⟨none, if_pos hdisc, fun t => by simp [hdisc.not_ge]⟩
    · have hdivisor : 3 * a ≠ 0 := mul_ne_zero three_ne_zero ha
      rw [if_neg hdisc, sqrt_number (not_lt.mp hdisc), number_add, number_div hdivisor,
        usable_number]
      split_ifs with hpos
      · refine ⟨some _, rfl, fun t => ?_⟩
        rw [Option.some_inj]
        exact ⟨fun h => ⟨h ▸ hpos, not_lt.mp hdisc, h.symm⟩, fun h => h.2.2.symm⟩
      · refine ⟨none, rfl, fun t => ⟨nofun, ?_⟩⟩
        rintro ⟨ht, -, rfl⟩
        exact absurd ht hpos

theorem cubicMinimizer_number (h : spread a0 a1 ≠ 0) :
    cubicMinimizer (number f0) (number slope) (number a0) (number fa0) (number a1) (number fa1) =
      .ok (cubicStep (number slope) (number (thirdCoefficient f0 slope a0 fa0 a1 fa1))
        (number (secondCoefficient f0 slope a0 fa0 a1 fa1))) := by
  simp only [cubicMinimizer, square_eq, cube_eq, number_mul, number_sub, number_neg, number_add,
    bind, Except.bind, zero_eq, number_beq, decide_eq_true_eq]
  rw [← spread, if_neg h, number_div h, number_div h]
  rfl

theorem finds_cubicMinimizer [TrueRoot K] (f0 fa0 fa1 : K) (hslope : slope < 0)
    (h : spread a0 a1 ≠ 0) :
    Finds (cubicMinimizer (number f0) (number slope) (number a0) (number fa0) (number a1)
      (number fa1)) (Settles (cubicThrough f0 slope a0 fa0 a1 fa1)) := by
  obtain ⟨result, hstep, hresult⟩ := exists_cubicStep
    (b := secondCoefficient f0 slope a0 fa0 a1 fa1)
    (a := thirdCoefficient f0 slope a0 fa0 a1 fa1) hslope
  refine ⟨result, ?_, fun t => (hresult t).trans settles_expansion_iff.symm⟩
  rw [cubicMinimizer_number h, hstep]

end Cubic

/-- Interpolation finds the minimizer exactly where there is one. For a negative slope at the start:
one quadratic has a given value at one trial, its minimizer is what comes out, and nothing comes out
if it has none, when it has no lower bound either; one cubic, or less, has given values at two
trials, the positive point where its slope vanishes and it is not curved downwards is what comes
out, there is at most one, and nothing comes out if there is none. -/
theorem interpolation_finds_minimizer [TrueRoot K] (hslope : slope < 0) (f0 : K) :
    (∀ alpha f, 0 < alpha → ∃ q : K[X], (∀ r, FitsOne r f0 slope alpha f ↔ r = q) ∧
      (∀ t, quadraticMinimizer (number f0) (number slope) (number alpha) (number f) =
        .ok (some (number t)) ↔ ∀ s, q.eval t ≤ q.eval s) ∧
      (quadraticMinimizer (number f0) (number slope) (number alpha) (number f) = .ok none ↔
        ¬ ∃ t, ∀ s, q.eval t ≤ q.eval s) ∧
      ((¬ ∃ t, ∀ s, q.eval t ≤ q.eval s) → ∀ bound, ∃ s, q.eval s < bound)) ∧
    ∀ a0 fa0 a1 fa1, 0 < a0 → 0 < a1 → a0 ≠ a1 →
      ∃ p : K[X], (∀ r, FitsTwo r f0 slope a0 fa0 a1 fa1 ↔ r = p) ∧
        (∀ t, cubicMinimizer (number f0) (number slope) (number a0) (number fa0) (number a1)
          (number fa1) = .ok (some (number t)) ↔ Settles p t) ∧
        (cubicMinimizer (number f0) (number slope) (number a0) (number fa0) (number a1)
          (number fa1) = .ok none ↔ ¬ ∃ t, Settles p t) ∧
        ∀ t u, Settles p t → Settles p u → t = u := by
  refine ⟨fun alpha f halpha => ?_, fun a0 fa0 a1 fa1 h0 h1 hne => ?_⟩
  · have hfinds := finds_quadraticMinimizer f0 f hslope halpha
    exact ⟨quadraticThrough f0 slope alpha f, fun r => fitsOne_iff halpha.ne', hfinds.some_iff,
      hfinds.none_iff, quadratic_unbounded hslope halpha⟩
  · have hspread := spread_ne h0.ne' h1.ne' hne
    have hfinds := finds_cubicMinimizer f0 fa0 fa1 hslope hspread
    exact ⟨cubicThrough f0 slope a0 fa0 a1 fa1, fun r => fitsTwo_iff hspread, hfinds.some_iff,
      hfinds.none_iff, fun t u => hfinds.unique⟩

/-- The quadratic `2t² - t` and the cubic `t³ - t² - t` from their values, and `-t³ - t`, which
falls everywhere. -/
theorem interpolation_finds_minimizer_of_samples :
    quadraticMinimizer (number (0 : ℝ)) (number (-1)) (number 1) (number 1) =
      .ok (some (number (1 / 4))) ∧
    cubicMinimizer (number (0 : ℝ)) (number (-1)) (number 1) (number (-1)) (number 2) (number 2) =
      .ok (some (number 1)) ∧
    cubicMinimizer (number (0 : ℝ)) (number (-1)) (number 1) (number (-2)) (number 2)
      (number (-10)) = .ok none := by
  have hslope : (-1 : ℝ) < 0 := by norm_num
  obtain ⟨q, hq, hsome, -⟩ := (interpolation_finds_minimizer hslope 0).1 1 1 one_pos
  obtain ⟨p, hp, hturn, -⟩ := (interpolation_finds_minimizer hslope 0).2 1 (-1) 2 2 one_pos
    two_pos (by norm_num)
  obtain ⟨r, hr, -, hnone, -⟩ := (interpolation_finds_minimizer hslope 0).2 1 (-2) 2 (-10) one_pos
    two_pos (by norm_num)
  have hquadratic : FitsOne (2 * X ^ 2 - X) (0 : ℝ) (-1) 1 1 :=
    ⟨by compute_degree, by simp, by simp, by norm_num⟩
  have hcubic : FitsTwo (X ^ 3 - X ^ 2 - X) (0 : ℝ) (-1) 1 (-1) 2 2 :=
    ⟨by compute_degree, by simp, by simp, by norm_num, by norm_num⟩
  have hfalling : FitsTwo (-X ^ 3 - X) (0 : ℝ) (-1) 1 (-2) 2 (-10) :=
    ⟨by compute_degree, by simp, by simp, by norm_num, by norm_num⟩
  obtain rfl := (hq _).mp hquadratic
  obtain rfl := (hp _).mp hcubic
  obtain rfl := (hr _).mp hfalling
  refine ⟨(hsome _).mpr fun s => ?_, (hturn 1).mpr ⟨one_pos, by norm_num, by norm_num⟩,
    hnone.mpr ?_⟩
  · have := sq_nonneg (s - 1 / 4)
    norm_num
    linarith
  · rintro ⟨t, -, hzero, -⟩
    have := sq_nonneg t
    norm_num at hzero
    linarith

end Downhill.Interpolation
