import Downhill.Proofs.LineSearch.FullStep
import Downhill.Proofs.LineSearch.Halving
import Downhill.Proofs.LineSearch.MoreThuente.Rounds
import Downhill.Proofs.Problem.QuadraticDifference

/-! The objective along a ray as a differentiable function of the step. Between two steps, of which
the first is not the higher one and has a slope that points to the second, the function has a
minimum, with a value below both and with slope zero. -/
open Matrix

namespace Downhill

section Smooth
variable {n : ℕ} {M : Type}

open Exact MoreThuente Set

section Calculus
variable {ψ ψ' : ℝ → ℝ} {a b : ℝ}

theorem Between.of_mem_uIcc {t : ℝ} (h : t ∈ uIcc a b) (ha : t ≠ a) (hb : t ≠ b) :
    Between a b t := by
  obtain ⟨hat, htb⟩ | ⟨hbt, hta⟩ := mem_uIcc.mp h
  · exact .inl ⟨lt_of_le_of_ne hat ha.symm, lt_of_le_of_ne htb hb⟩
  · exact .inr ⟨lt_of_le_of_ne hbt hb.symm, lt_of_le_of_ne hta ha⟩

/-- A slope that points to `b` leads down at once. -/
theorem exists_lower (hd : HasDerivWithinAt ψ (ψ' a) (uIcc a b) a) (hslope : ψ' a * (b - a) < 0) :
    ∃ s ∈ uIcc a b, ψ s < ψ a := by
  by_contra hnone
  have hmin : IsLocalMinOn ψ (uIcc a b) a := by
    refine IsMinOn.localize fun s hs => ?_
    exact not_lt.mp fun hlt => hnone ⟨s, hs, hlt⟩
  have htangent : b - a ∈ posTangentConeAt (uIcc a b) a :=
    sub_mem_posTangentConeAt_of_segment_subset (segment_eq_uIcc a b).subset
  have hnonneg : 0 ≤ (b - a) * ψ' a := by
    simpa using hmin.hasFDerivWithinAt_nonneg hd.hasFDerivWithinAt htangent
  linarith

/-- The minimum between two steps. -/
theorem exists_stationary (hd : ∀ t ∈ uIcc a b, HasDerivWithinAt ψ (ψ' t) (uIcc a b) t)
    (hslope : ψ' a * (b - a) < 0) (hle : ψ a ≤ ψ b) :
    ∃ t, Between a b t ∧ ψ' t = 0 ∧ ψ t < ψ a := by
  have hcont : ContinuousOn ψ (uIcc a b) := fun t ht => (hd t ht).continuousWithinAt
  obtain ⟨t, ht, hmin⟩ := isCompact_uIcc.exists_isMinOn nonempty_uIcc hcont
  obtain ⟨s, hs, hlower⟩ := exists_lower (hd a left_mem_uIcc) hslope
  have hlt : ψ t < ψ a := (hmin hs).trans_lt hlower
  have hbetween : Between a b t := by
    apply Between.of_mem_uIcc ht
    · rintro rfl
      exact hlt.false
    · rintro rfl
      exact (hlt.trans_le hle).false
  have hnhds : uIcc a b ∈ nhds t := by
    obtain ⟨hat, htb⟩ | ⟨hbt, hta⟩ := hbetween
    · exact Icc_mem_nhds (min_lt_of_left_lt hat) (lt_max_of_lt_right htb)
    · exact Icc_mem_nhds (min_lt_of_right_lt hbt) (lt_max_of_lt_left hta)
  have hzero := (hmin.isLocalMin hnhds).hasDerivAt_eq_zero ((hd t ht).hasDerivAt hnhds)
  exact ⟨t, hbetween, hzero, hlt⟩

/-- The same for what is left of the function above a line of slope `g`. -/
theorem exists_parallel {g : ℝ} (hd : ∀ t ∈ uIcc a b, HasDerivWithinAt ψ (ψ' t) (uIcc a b) t)
    (hslope : (ψ' a - g) * (b - a) < 0) (hle : ψ a - a * g ≤ ψ b - b * g) :
    ∃ t, Between a b t ∧ ψ' t = g ∧ ψ t - t * g < ψ a - a * g := by
  have hline : ∀ t ∈ uIcc a b,
      HasDerivWithinAt (fun t => ψ t - t * g) (ψ' t - g) (uIcc a b) t := by
    intro t ht
    have hmul := (hasDerivWithinAt_id t (uIcc a b)).mul_const g
    rw [one_mul] at hmul
    exact (hd t ht).sub hmul
  obtain ⟨t, hbetween, hzero, hlt⟩ := exists_stationary hline hslope hle
  exact ⟨t, hbetween, sub_eq_zero.mp hzero, hlt⟩

end Calculus

/-- Forward along a ray the problem has the value and the slope of a function that can be
differentiated, and the start comes with its own. -/
structure Ray.Smooth (r : Ray (Exact ℝ) (Vector (Exact ℝ) n))
    (p : Problem (Exact ℝ) (Vector (Exact ℝ) n) M) (φ φ' : ℝ → ℝ) : Prop where
  value : ∀ t, 0 ≤ t → p.value (r.along (number t)) = .ok (number (φ t))
  gradient : ∀ t, 0 ≤ t →
    ∃ g, p.gradient (r.along (number t)) = .ok g ∧ dot g r.direction = number (φ' t)
  deriv : ∀ t, 0 ≤ t → HasDerivWithinAt φ (φ' t) (Ici 0) t
  start_value : r.start.value = number (φ 0)
  start_slope : dot r.start.gradient r.direction = number (φ' 0)

namespace Ray.Smooth
variable {r : Ray (Exact ℝ) (Vector (Exact ℝ) n)} {p : Problem (Exact ℝ) (Vector (Exact ℝ) n) M}
  {φ φ' : ℝ → ℝ} (h : r.Smooth p φ φ') {t f d : ℝ}
include h

theorem value_eq (ht : 0 ≤ t) (hf : p.value (r.along (number t)) = .ok (number f)) : f = φ t := by
  rw [h.value t ht] at hf
  cases hf
  rfl

theorem slope_eq (ht : 0 ≤ t) {g : Vector (Exact ℝ) n}
    (hg : p.gradient (r.along (number t)) = .ok g) (hd : number d = dot g r.direction) :
    d = φ' t := by
  obtain ⟨g', hg', hd'⟩ := h.gradient t ht
  rw [hg] at hg'
  cases hg'
  rw [hd'] at hd
  exact number.inj hd

/-- The preparations of a search find the slope at the start and a first trial. -/
theorem exists_of_prepare {default slope alpha : Exact ℝ} {asked : Option (Exact ℝ)}
    (hprepare : r.prepare default asked = .ok (slope, alpha)) :
    slope = number (φ' 0) ∧ φ' 0 < 0 ∧ ∃ a, 0 < a ∧ alpha = number a := by
  obtain ⟨hslope, hneg, hpos, hfin⟩ := Ray.prepare_eq_ok hprepare
  have hm : slope = number (φ' 0) := hslope.trans h.start_slope
  obtain ⟨a, ha, hnumber⟩ := exists_of_pos hpos hfin
  exact ⟨hm, number_lt.mp (hm ▸ hneg), a, ha, hnumber⟩

theorem deriv_uIcc {a b : ℝ} (ha : 0 ≤ a) (hb : 0 ≤ b) :
    ∀ t ∈ uIcc a b, HasDerivWithinAt φ (φ' t) (uIcc a b) t := by
  intro t ht
  have hnonneg : uIcc a b ⊆ Ici 0 := fun s hs => (le_min ha hb).trans hs.1
  exact (h.deriv t (hnonneg ht)).mono hnonneg

end Ray.Smooth

/-- A quadratic function is smooth along every ray. -/
theorem ConvexQuadratic.smooth (q : ConvexQuadratic ℝ n) (x d : Fin n → ℝ) :
    Ray.Smooth ⟨⟨lift x, number (q.value x), lift (q.gradient x)⟩, lift d⟩ q.objective.problem
      (fun t => q.value x + t * (q.gradient x ⬝ᵥ d) + t * t / 2 * (d ⬝ᵥ q.matrix *ᵥ d))
      (fun t => q.gradient x ⬝ᵥ d + t * (d ⬝ᵥ q.matrix *ᵥ d)) where
  value t _ := by
    have hpoint : q.value (x + t • d) = q.value x + t * (q.gradient x ⬝ᵥ d) +
        t * t / 2 * (d ⬝ᵥ q.matrix *ᵥ d) := by
      rw [q.value_add, dotProduct_smul, mulVec_smul, dotProduct_smul, smul_dotProduct]
      simp only [smul_eq_mul]
      ring
    simp only [Ray.along, number_mul_lift, lift_add, Quadratic.problem, q.value_objective, hpoint]
  gradient t _ := by
    refine ⟨lift (q.gradient (x + t • d)), ?_, ?_⟩
    · simp only [Ray.along, number_mul_lift, lift_add, Quadratic.problem, Problem.gradient,
        q.gradient_objective]
    · rw [dot_lift, q.gradient_add_smul, add_dotProduct, smul_dotProduct,
        dotProduct_comm (q.matrix *ᵥ d), smul_eq_mul]
  deriv t _ := by
    have hline := (hasDerivAt_id' t).mul_const (q.gradient x ⬝ᵥ d)
    have hsquare := (((hasDerivAt_id' t).mul (hasDerivAt_id' t)).div_const 2).mul_const
      (d ⬝ᵥ q.matrix *ᵥ d)
    have hsum := (hline.const_add (q.value x)).add hsquare
    refine (hsum.congr_deriv ?_).hasDerivWithinAt
    ring
  start_value := by simp
  start_slope := by simp

end Smooth

/-! First trials that overshoot. A first trial with a higher value is the other end of the interval,
or the upper end of the bracket, when the second round begins. -/

section Overshoot
variable {n : ℕ} {M : Type} {r : Ray (Exact ℝ) (Vector (Exact ℝ) n)}
  {p : Problem (Exact ℝ) (Vector (Exact ℝ) n) M} {φ φ' : ℝ → ℝ}
  {l : Ledger (Exact ℝ) (Vector (Exact ℝ) n)}

open Exact MoreThuente

namespace MoreThuente
variable {K V : Type} [ExactField K] {x y p : End K}

/-- After a rise to a trial with an upward slope the next trial is a number. -/
theorem exists_trialStep_of_rise (hxp : x.step < p.step) (hx : x.slope < 0) (hp : 0 < p.slope)
    (hrise : x.value < p.value) (bracketed : Bool) (low high : Exact K) :
    ∃ z, trialStep x.exact y.exact p.exact bracketed low high = number z := by
  have hwidth : 0 < p.step - x.step := sub_pos.mpr hxp
  have htwo : (2.0 : K) ≠ 0 := by norm_num
  obtain ⟨c, hc⟩ : ∃ c, cubicFrom x.exact p.exact = number c := by
    obtain ⟨t, ht⟩ := exists_theta hwidth.ne'
    obtain ⟨gamma, hgamma, hroot⟩ := exists_cubicGamma t x.slope p.slope
    have hden : gamma - x.slope + gamma + p.slope ≠ 0 := by
      have hpos : 0 < gamma - x.slope + gamma + p.slope := by linarith
      exact hpos.ne'
    simp [cubicFrom, ht, hroot, oriented, hxp.not_gt, number_div hden]
  obtain ⟨q, hq⟩ : ∃ q, quadraticFrom x.exact p.exact = number q := by
    have hden : (x.value - p.value) / (p.step - x.step) + x.slope ≠ 0 := by
      have hfall := div_neg_of_neg_of_pos (sub_neg.mpr hrise) hwidth
      exact (add_neg hfall hx).ne
    simp [quadraticFrom, number_div hwidth.ne', number_div hden, number_div htwo]
  have hstep : trialStep x.exact y.exact p.exact bracketed low high =
      stepAfterRise x.exact p.exact := if_pos (number_lt.mpr hrise)
  rw [hstep, stepAfterRise, hc, hq]
  split_ifs
  · exact ⟨c, rfl⟩
  · exact ⟨c + (q - c) / 2.0, by simp [number_div htwo]⟩

/-- A first trial that rises, with an upward slope and strictly within the bounds, brackets. -/
theorem exists_judge_of_rise [Space (Exact K) V] (s : MoreThuente (Exact K))
    {r : Ray (Exact K) V} {z : Iterate (Exact K) V} {f0 m t f d : K}
    (hf0 : r.start.value = number f0) (hz : z.value = number f)
    (hd : Space.inner z.gradient r.direction = number d) (hm : m < 0) (ht : 0 < t) (hrise : f0 < f)
    (hup : 0 < d) (hlow : (number t == s.alphaMin) = false)
    (hhigh : (number t == s.alphaMax) = false) :
    ∃ st, s.judge r (number m) (s.initial r.start.value (number m) (number t)) z = .inl st ∧
      st.bracketed = true ∧ st.best.step = 0 ∧ st.other.step = number t := by
  set st₀ : State (Exact K) V := s.initial r.start.value (number m) (number t) with hst
  have htried : tried r st₀ z = End.exact ⟨t, f, d⟩ := by
    rw [tried, hz, hd, hst]
    rfl
  have hupdate : ∃ a, updateAfter s r (number m) st₀ z =
      ⟨End.exact ⟨0, f0, m⟩, End.exact ⟨t, f, d⟩, number a, true⟩ := by
    obtain ⟨a, ha⟩ := exists_trialStep_of_rise (x := ⟨0, f0, m⟩) (y := ⟨0, f0, m⟩)
      (p := ⟨t, f, d⟩) ht hm hup hrise false 0 (number t + extrapolateUpper * number t)
    refine ⟨a, ?_⟩
    rw [← ha, updateAfter, htried, update, hst, if_neg]
    · rw [hf0]
      exact if_pos (number_lt.mpr hrise)
    · simp [MoreThuente.initial, End.exact, hf0, hrise]
  obtain ⟨a, hupdate⟩ := hupdate
  have hacc : s.acceptable r.start.value (number m) (tried r st₀ z) = false := by
    rw [htried]
    simp [acceptable, hf0, hrise.le]
  have hstop : s.earlyStop r.start.value (number m) st₀ (tried r st₀ z) = none := by
    rw [htried]
    simp [earlyStop, hst, MoreThuente.initial, hlow, hhigh]
  have hfin : Scalar.isFinite (updateAfter s r (number m) st₀ z).next = true := by
    rw [hupdate]
    rfl
  refine ⟨_, judge_eq_after s r (number m) st₀ z hacc hstop hfin, ?_, ?_, ?_⟩
  · rw [after, settle_bracketed, hupdate]
  · rw [after, settle_best, hupdate]
    rfl
  · rw [after, settle_other, hupdate]
    rfl

end MoreThuente

namespace Ray.Smooth
variable (hr : r.Smooth p φ φ') {t : ℝ} (ht : 0 ≤ t)
include hr ht

theorem replies_value :
    Replies (p.oracle.recorded.value (r.along (number t))) fun a => a = number (φ t) :=
  Oracle.replies_recorded_value (Eval.replies_ofExcept (hr.value t ht) rfl)

theorem replies_gradient : ∃ g, dot (lift g) r.direction = number (φ' t) ∧
    Replies (p.oracle.recorded.gradient (r.along (number t))) fun v => v = lift g := by
  obtain ⟨v, hv, hslope⟩ := hr.gradient t ht
  obtain ⟨g, _, rfl, -⟩ := exists_of_dot_eq hslope
  exact ⟨g, hslope, Oracle.replies_recorded_gradient (Eval.replies_ofExcept hv rfl)⟩

end Ray.Smooth

/-- After a first trial that rises, with an upward slope and strictly within the bounds, the second
round begins with a bracketed interval. -/
theorem MoreThuente.exists_begins_one {s : MoreThuente (Exact ℝ)} (hr : r.Smooth p φ φ') {t : ℝ}
    (ht : 0 < t) (hm : φ' 0 < 0) (hrise : φ 0 < φ t) (hup : 0 < φ' t) {low high : ℝ}
    (hlow : s.alphaMin = number low) (hhigh : s.alphaMax = number high) (hlt : low < t)
    (hth : t < high) :
    ∃ st, Begins s p r (number (φ' 0)) (number t) l 1 st ∧ st.bracketed = true ∧
      st.best.step = 0 ∧ st.other.step = number t := by
  have hclamp : Scalar.clamp s.alphaMin s.alphaMax (number t) = number t := by
    rw [hlow, hhigh]
    exact clamp_eq_self (number_le.mpr hlt.le) (number_le.mpr hth.le)
  obtain ⟨g, hslope, hgradient⟩ := hr.replies_gradient ht.le
  have hround : Replies (s.attempt p.oracle.recorded r (number (φ' 0))
      (s.initial r.start.value (number (φ' 0)) (number t))) _ :=
    replies_judge s (number (φ' 0)) (hr.replies_value ht.le) hgradient
  obtain ⟨_, l', hrun, rfl⟩ := hround.exists_answer l
  obtain ⟨st, hjudge, hst⟩ := exists_judge_of_rise s hr.start_value
    (z := ⟨r.along (number t), number (φ t), lift g⟩) rfl hslope hm ht hrise hup
    (by simp [hlow, hlt.ne']) (by simp [hhigh, hth.ne])
  refine ⟨st, ⟨l', ?_⟩, hst⟩
  rw [upTo_one, hclamp, ← hjudge]
  exact hrun

/-- After a first trial without decrease, within the bounds and wider than the least step, the
second round begins with this trial as the upper end. -/
theorem Bisection.exists_begins_one {s : Bisection (Exact ℝ)} (hr : r.Smooth p φ φ') {t : ℝ}
    (ht : 0 < t) (hrise : φ 0 ≤ φ t) {low high : ℝ} (hlow : s.alphaMin = number low)
    (hhigh : s.alphaMax = number high) (hlt : low ≤ t / 2) (hth : t ≤ high) :
    ∃ st, Begins s p r (number (φ' 0)) (number t) l 1 st ∧ st.low = 0 ∧
      st.high = some (number t) := by
  have hreject : sufficientDecrease (number (φ t)) r.start.value (number t) (number (φ' 0)) s.c1 =
      false := by
    rw [hr.start_value]
    simp [sufficientDecrease, hrise.not_gt]
  have hgoes : (low ≤ 0.5 * t ∧ 0.5 * t ≤ high) ∧ low ≤ t := by
    norm_num
    refine ⟨⟨?_, ?_⟩, ?_⟩ <;> linarith
  have hround : Replies (s.attempt p.oracle.recorded r (number (φ' 0)) (initial (number t)))
      fun u => ∃ st, u = .inl st ∧ st.low = 0 ∧ st.high = some (number t) := by
    refine .bind (replies_trialValue (number t) (hr.replies_value ht.le)) fun a ha => ?_
    subst ha
    refine .ite (fun hdecrease => ?_) fun _ => .pure ⟨_, if_neg ?_, rfl, rfl⟩
    · exact absurd (hreject.symm.trans hdecrease) Bool.false_ne_true
    · simpa [exhausted, nextStep, upperEnd, initial, hlow, hhigh] using hgoes
  obtain ⟨_, l', hrun, st, rfl, hst⟩ := hround.exists_answer l
  refine ⟨st, ⟨l', ?_⟩, hst⟩
  rw [upTo_one]
  exact hrun

end Overshoot

end Downhill
