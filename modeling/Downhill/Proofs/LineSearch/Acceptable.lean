import Downhill.Proofs.LineSearch.Overshoot

/-! Every bracket contains an acceptable step. Along a ray on which the objective is smooth, the
ends that the invariants of the two bracketing searches speak of leave a minimum between them, of
the function itself or of what it is above the sufficient-decrease line; there the value has
decreased sufficiently and the slope is flat enough for the curvature condition. -/
open Matrix

namespace Downhill
variable {n : ℕ} {M : Type} {r : Ray (Exact ℝ) (Vector (Exact ℝ) n)}
  {p : Problem (Exact ℝ) (Vector (Exact ℝ) n) M} {φ φ' : ℝ → ℝ}
  {l : Ledger (Exact ℝ) (Vector (Exact ℝ) n)} {slope alpha : Exact ℝ} {asked : Option (Exact ℝ)}
  {k : ℕ}

open Exact MoreThuente Set

namespace MoreThuente
variable {c1 c2 m f0 : ℝ} {x y : End ℝ} {firstStage : Bool}

/-- A bracketed interval of either stage has a step inside that the strong Wolfe conditions
accept. In the first stage the function less the line has its minimum there, in the second stage the
function itself. -/
theorem Interval.exists_acceptable (h : Interval f0 (c1 * m) x y true firstStage) (hm : m < 0)
    (hc1 : 0 < c1) (hc : c1 < c2)
    (hd : ∀ t ∈ uIcc x.step y.step, HasDerivWithinAt φ (φ' t) (uIcc x.step y.step) t)
    (hx : x.value = φ x.step) (hx' : x.slope = φ' x.step) (hy : y.value = φ y.step) :
    ∃ t, Between x.step y.step t ∧ φ t ≤ f0 + c1 * t * m ∧ |φ' t| ≤ c2 * |m| := by
  have hg : c1 * m < 0 := mul_neg_of_pos_of_neg hc1 hm
  have hline := h.best_excess
  simp only [End.excess, hx] at hline
  cases hstage : firstStage with
  | true =>
    obtain ⟨hright, hexcess, -⟩ := h.first rfl hstage
    simp only [End.excess, hx, hy] at hexcess
    have hslope : (φ' x.step - c1 * m) * (y.step - x.step) < 0 := by
      rw [← hx']
      exact mul_neg_of_neg_of_pos (sub_neg.mpr (h.steep hstage)) (sub_pos.mpr hright)
    obtain ⟨t, hbetween, hflat, hlow⟩ := exists_parallel hd hslope (by linarith)
    refine ⟨t, hbetween, by linarith, ?_⟩
    rw [hflat, abs_of_neg hg, abs_of_neg hm, ← mul_neg]
    exact mul_le_mul_of_nonneg_right hc.le (neg_nonneg.mpr hm.le)
  | false =>
    obtain ⟨hle, hslope, -⟩ := h.second hstage
    rw [hx, hy] at hle
    rw [hx'] at hslope
    obtain ⟨t, hbetween, hflat, hlow⟩ := exists_stationary hd hslope hle
    have hbound := h.bound_le hg hstage hbetween.le_max
    rw [hx] at hbound
    refine ⟨t, hbetween, by linarith, ?_⟩
    rw [hflat, abs_zero]
    exact mul_nonneg (hc1.le.trans hc.le) (abs_nonneg m)

/-- An end has the value and the slope of the function at its step. -/
theorem end_eq {s : MoreThuente (Exact ℝ)} (hr : r.Smooth p φ φ') {e : End ℝ}
    (he : e = ⟨0, φ 0, φ' 0⟩ ∨ 0 < e.step ∧ Tested s p r slope alpha l k e) :
    e.value = φ e.step ∧ e.slope = φ' e.step := by
  obtain rfl | ⟨hpos, -, hvalue, g, hgradient, hslope⟩ := he
  · exact ⟨rfl, rfl⟩
  · exact ⟨hr.value_eq hpos.le hvalue, hr.slope_eq hpos.le hgradient hslope⟩

/-- The interval that a round begins with has such a step, if it is bracketed. -/
theorem exists_acceptable_of_begins {s : MoreThuente (Exact ℝ)} (hr : r.Smooth p φ φ')
    (hs : s.check = .ok ()) (hprepare : r.prepare s.alpha0 asked = .ok (slope, alpha))
    {st : State (Exact ℝ) (Vector (Exact ℝ) n)} (h : Begins s p r slope alpha l k st)
    (hb : st.bracketed = true) :
    ∃ t : ℝ, Between st.best.step st.other.step (number t) ∧
      number (φ t) ≤ number (φ 0) + s.c1 * number t * number (φ' 0) ∧
      Scalar.abs (number (φ' t)) ≤ s.c2 * Scalar.abs (number (φ' 0)) := by
  obtain ⟨c1, c2, low, haccepted⟩ := exists_accepted hs
  obtain ⟨rfl, hneg, a, ha, rfl⟩ := hr.exists_of_prepare hprepare
  obtain ⟨x, y, t, hinv⟩ := exists_invariant haccepted hneg ha hr.start_value hr.start_slope h
  obtain ⟨hx, hx'⟩ := end_eq hr hinv.best_tested
  obtain ⟨hy, -⟩ := end_eq hr hinv.other_tested
  have hinterval := hinv.interval
  rw [hb] at hinterval
  have hd := hr.deriv_uIcc hinterval.best_nonneg hinterval.other_nonneg
  obtain ⟨t, hbetween, hdecrease, hflat⟩ := hinterval.exists_acceptable hneg haccepted.c1_pos
    haccepted.c1_lt hd hx hx' hy
  rw [hinv.best_eq, hinv.other_eq, haccepted.c1_eq, haccepted.c2_eq]
  exact ⟨t, hbetween, hdecrease, hflat⟩

end MoreThuente

namespace Bisection
variable {c1 c2 a b m f0 : ℝ}

/-- The start and the steps that are too short lie below the line, and the function falls more
steeply there than the line does. -/
theorem Short.below_line (h : Short p r c1 c2 (φ 0) (φ' 0) a) (hr : r.Smooth p φ φ')
    (hm : φ' 0 < 0) (hc : c1 < c2) (hc2 : c2 < 1) :
    φ a ≤ φ 0 + c1 * a * φ' 0 ∧ φ' a < c1 * φ' 0 := by
  have hsteep : c2 * φ' 0 < c1 * φ' 0 := mul_lt_mul_of_neg_right hc hm
  cases h with
  | start =>
    constructor
    · simp
    · linarith [mul_lt_mul_of_neg_right (hc.trans hc2) hm]
  | trial pos value gradient slope decrease steep =>
    rw [hr.value_eq pos.le value] at decrease
    rw [hr.slope_eq pos.le gradient slope] at steep
    exact ⟨decrease, steep.trans hsteep⟩

/-- Between a step at or below the line and a step above it the function falls as the line does,
below the line. -/
theorem exists_acceptable (hm : m < 0) (hc1 : 0 < c1) (hc : c1 < c2) (ha : 0 ≤ a) (hab : a < b)
    (hd : ∀ t ∈ uIcc a b, HasDerivWithinAt φ (φ' t) (uIcc a b) t)
    (hlow : φ a ≤ f0 + c1 * a * m) (hsteep : φ' a < c1 * m) (hhigh : f0 + c1 * b * m < φ b) :
    ∃ t, a < t ∧ t < b ∧ φ t < f0 ∧ φ t ≤ f0 + c1 * t * m ∧ c2 * m ≤ φ' t := by
  have hslope : (φ' a - c1 * m) * (b - a) < 0 :=
    mul_neg_of_neg_of_pos (sub_neg.mpr hsteep) (sub_pos.mpr hab)
  obtain ⟨t, hbetween, hflat, hlower⟩ := exists_parallel hd hslope (by linarith)
  obtain ⟨hat, htb⟩ | ⟨hbt, hta⟩ := hbetween
  · have hline : c1 * t * m < 0 := mul_neg_of_pos_of_neg (mul_pos hc1 (ha.trans_lt hat)) hm
    refine ⟨t, hat, htb, by linarith, by linarith, ?_⟩
    rw [hflat]
    exact mul_le_mul_of_nonpos_right hc.le hm.le
  · exact absurd (hbt.trans hta) hab.not_gt

/-- The bracket that a round begins with has such a step, if it has an upper end. -/
theorem exists_acceptable_of_begins {s : Bisection (Exact ℝ)} (hr : r.Smooth p φ φ')
    (hs : s.check = .ok ()) (hprepare : r.prepare s.alpha0 asked = .ok (slope, alpha))
    {st : State (Exact ℝ) (Vector (Exact ℝ) n)} (h : Begins s p r slope alpha l k st)
    {high : Exact ℝ} (hhigh : st.high = some high) :
    ∃ t : ℝ, st.low < number t ∧ number t < high ∧ number (φ t) < number (φ 0) ∧
      number (φ t) ≤ number (φ 0) + s.c1 * number t * number (φ' 0) ∧
      s.c2 * number (φ' 0) ≤ number (φ' t) := by
  obtain ⟨c1, c2, haccepted⟩ := exists_accepted hs
  obtain ⟨rfl, hneg, alpha, halpha, rfl⟩ := hr.exists_of_prepare hprepare
  obtain ⟨a, c, hbrackets, -⟩ :=
    ready_of_begins haccepted hneg hr.start_value hr.start_slope halpha h
  obtain ⟨b, rfl, hab, f, hvalue, hlong⟩ := hbrackets.high high hhigh
  have ha : 0 ≤ a := hbrackets.short.nonneg
  obtain ⟨hlow, hsteep⟩ := hbrackets.short.below_line hr hneg haccepted.c1_lt haccepted.c2_lt
  rw [hr.value_eq (ha.trans hab.le) hvalue] at hlong
  have hd := hr.deriv_uIcc ha (ha.trans hab.le)
  obtain ⟨t, hat, htb, hlt, hle, hcurved⟩ := exists_acceptable hneg haccepted.c1_pos
    haccepted.c1_lt ha hab hd hlow hsteep hlong
  rw [hbrackets.low_eq, haccepted.c1_eq, haccepted.c2_eq]
  exact ⟨t, hat, htb, hlt, hle, hcurved⟩

end Bisection

namespace LineSearch

/-- Every bracket contains an acceptable step. Along a ray on which the objective is smooth,
whenever the search for the strong Wolfe conditions is about to make a trial in a bracketed
interval, some step strictly inside satisfies both conditions; and whenever the search by doubling
and halving is about to make a trial below an upper end, some step strictly inside decreases the
value, and sufficiently, and satisfies the weak curvature condition. -/
theorem exists_acceptable_in_bracket (hr : r.Smooth p φ φ') :
    (∀ (s : MoreThuente (Exact ℝ)) asked slope alpha l k st, s.check = .ok () →
      r.prepare s.alpha0 asked = .ok (slope, alpha) →
      MoreThuente.Begins s p r slope alpha l k st → st.bracketed = true →
      ∃ t : ℝ, Between st.best.step st.other.step (number t) ∧
        number (φ t) ≤ number (φ 0) + s.c1 * number t * number (φ' 0) ∧
        Scalar.abs (number (φ' t)) ≤ s.c2 * Scalar.abs (number (φ' 0))) ∧
    (∀ (s : Bisection (Exact ℝ)) asked slope alpha l k st high, s.check = .ok () →
      r.prepare s.alpha0 asked = .ok (slope, alpha) →
      Bisection.Begins s p r slope alpha l k st → st.high = some high →
      ∃ t : ℝ, st.low < number t ∧ number t < high ∧ number (φ t) < number (φ 0) ∧
        number (φ t) ≤ number (φ 0) + s.c1 * number t * number (φ' 0) ∧
        s.c2 * number (φ' 0) ≤ number (φ' t)) := by
  constructor
  · intro s asked slope alpha l k st hs hprepare hbegins hb
    exact MoreThuente.exists_acceptable_of_begins hr hs hprepare hbegins hb
  · intro s asked slope alpha l k st high hs hprepare hbegins hhigh
    exact Bisection.exists_acceptable_of_begins hr hs hprepare hbegins hhigh

/-- The function `½ x²` of one variable. -/
noncomputable def parabola : ConvexQuadratic ℝ 1 where
  matrix := 1
  linear := 0
  symm := isSymm_one
  pos v hv := by
    rw [one_mulVec]
    exact dotProduct_self_pos hv

theorem smooth_parabola : Ray.Smooth ⟨⟨lift ![-1], number (1 / 2), lift ![-1]⟩, lift ![4]⟩
    parabola.objective.problem (fun t => 1 / 2 + t * -4 + t * t / 2 * 16)
    (fun t => -4 + t * 16) := by
  have hsmooth := parabola.smooth ![-1] ![4]
  have hvalue : parabola.value ![-1] = 1 / 2 := by
    simp [ConvexQuadratic.value, parabola]
  have hgradient : parabola.gradient ![-1] = ![-1] := by
    simp [ConvexQuadratic.gradient, parabola]
  have hslope : ![-1] ⬝ᵥ ![(4 : ℝ)] = -4 := by
    simp
  have hbend : ![(4 : ℝ)] ⬝ᵥ parabola.matrix *ᵥ ![4] = 16 := by
    norm_num [parabola]
  rwa [hvalue, hgradient, hslope, hbend] at hsmooth

/-- From `-1` the first trial overshoots, so both searches have the bracket from zero to one. -/
theorem exists_acceptable_in_bracket_parabola :
    let r : Ray (Exact ℝ) (Vector (Exact ℝ) 1) :=
      ⟨⟨lift ![-1], number (1 / 2), lift ![-1]⟩, lift ![4]⟩
    let p := parabola.objective.problem
    let s : MoreThuente (Exact ℝ) := ⟨1, number (1 / 4), number (1 / 2), 0, 0, number 8, 5⟩
    let b : Bisection (Exact ℝ) := ⟨1, number (1 / 4), number (1 / 2), true, 5, 0, number 8⟩
    (∃ st, MoreThuente.Begins s p r (number (-4)) (number 1) {} 1 st ∧ st.bracketed = true ∧
      st.best.step = 0 ∧ st.other.step = 1 ∧ ∃ t : ℝ, 0 < t ∧ t < 1 ∧
        1 / 2 + t * -4 + t * t / 2 * 16 ≤ 1 / 2 + 1 / 4 * t * -4 ∧ |-4 + t * 16| ≤ 1 / 2 * |-4|) ∧
    (∃ st, Bisection.Begins b p r (number (-4)) (number 1) {} 1 st ∧ st.low = 0 ∧
      st.high = some 1 ∧ ∃ t : ℝ, 0 < t ∧ t < 1 ∧ 1 / 2 + t * -4 + t * t / 2 * 16 < 1 / 2 ∧
        1 / 2 + t * -4 + t * t / 2 * 16 ≤ 1 / 2 + 1 / 4 * t * -4 ∧ 1 / 2 * -4 ≤ -4 + t * 16) := by
  intro r p s b
  have hprepare : r.prepare 1 none = .ok (number (-4), number 1) :=
    Ray.prepare_one (by rw [Space.inner_vector, dot_lift]; norm_num) (by norm_num)
  have hwolfe : checkWolfe (number (1 / 4)) (number (1 / 2 : ℝ)) = .ok () := by
    refine checkWolfe_eq_ok_iff.mpr ⟨⟨?_, ?_⟩, ?_, ?_⟩ <;> apply number_lt.mpr <;> norm_num
  constructor
  · have hcheck : s.check = .ok () := by
      refine bind_eq_ok_iff.mpr ⟨(), hwolfe, ?_⟩
      simp [s, pure, Except.pure]
    obtain ⟨st, hbegins, hb, hbest, hother⟩ := MoreThuente.exists_begins_one (s := s) (l := {})
      smooth_parabola one_pos (by norm_num) (by norm_num) (by norm_num) rfl rfl one_pos
      (by norm_num)
    norm_num at hbegins
    obtain ⟨t, hbetween, hle, hflat⟩ := (exists_acceptable_in_bracket smooth_parabola).1 s none _ _
      {} 1 st hcheck hprepare hbegins hb
    rw [hbest, hother] at hbetween
    simp only [zero_eq, number_lt, Between, number_mul, number_add, number_le, abs_number, s,
      zero_mul, zero_div, add_zero] at hbetween hle hflat
    obtain ⟨h0, h1⟩ | ⟨h1, h0⟩ := hbetween
    · exact ⟨st, hbegins, hb, hbest, hother, t, h0, h1, hle, hflat⟩
    · exact absurd (h1.trans h0) zero_lt_one.not_gt
  · have hcheck : b.check = .ok () := by
      refine bind_eq_ok_iff.mpr ⟨(), hwolfe, ?_⟩
      simp [b, pure, Except.pure]
    obtain ⟨st, hbegins, hlow, hhigh⟩ := Bisection.exists_begins_one (s := b) (l := {})
      smooth_parabola one_pos (by norm_num) rfl rfl (by norm_num) (by norm_num)
    norm_num at hbegins
    obtain ⟨t, hlt, hlt', hdecrease, hle, hcurved⟩ :=
      (exists_acceptable_in_bracket smooth_parabola).2 b none _ _ {} 1 st 1 hcheck hprepare hbegins
        hhigh
    rw [hlow] at hlt
    simp only [zero_eq, one_eq, number_lt, number_mul, number_add, number_le, b,
      zero_mul, zero_div, add_zero] at hlt hlt' hdecrease hle hcurved
    exact ⟨st, hbegins, hlow, hhigh, t, hlt, hlt', hdecrease, hle, hcurved⟩

end LineSearch

end Downhill
