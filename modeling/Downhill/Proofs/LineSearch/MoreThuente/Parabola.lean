import Downhill.Proofs.LineSearch.MoreThuente.Best
import Downhill.Proofs.LineSearch.MoreThuente.Cubic
import Downhill.Proofs.LineSearch.MoreThuente.Shrinking

/-! The bracketing search on a parabola. Between two points of a parabola the cubic formulas, the
quadratic one and the secant all lead to its vertex. So the trial after the one that brackets is the
minimizer, of the function itself or of what it is above the line; both meet the strong Wolfe
conditions. -/
namespace Downhill.MoreThuente
variable {K : Type} [ExactField K]

open Exact

/-- The point of a parabola at the step `t`. -/
def parabola (f m κ t : K) : End K := ⟨t, f + m * t + κ * t * t, m + (κ + κ) * t⟩

/-- Where the parabola has slope zero. -/
def vertex (m κ : K) : K := -m / (κ + κ)

section Formulas
variable {f m κ a b : K} {y : End (Exact K)}

theorem parabola_lowered (g t : K) : (parabola f m κ t).exact.lowered (number g) =
    (parabola f (m - g) κ t).exact := by
  rw [End.lowered_exact]
  congr 1
  simp only [parabola, End.mk.injEq, true_and]
  exact ⟨by ring, by ring⟩

/-- The root of the discriminant where that is a square. -/
theorem cubicGamma_of_square [SquareRoot K] {theta c : K} (h : theta * theta - a * b = c * c) :
    cubicGamma (number theta) (number a) (number b) = number |c| := by
  refine cubicGamma_of_mul_self (abs_nonneg c) ?_
  rw [h, max_eq_right (mul_self_nonneg c), abs_mul_abs_self]

/-- A step from `a` by the share `num / den` of `d` that leads to the vertex. -/
theorem step_to_vertex {num den d : K} (hκ : 0 < κ) (hden : den ≠ 0)
    (h : num * d * (κ + κ) = -(m + (κ + κ) * a) * den) : a + num / den * d = vertex m κ := by
  rw [vertex, eq_div_iff (add_pos hκ hκ).ne']
  calc (a + num / den * d) * (κ + κ) = a * (κ + κ) + num * d * (κ + κ) / den := by ring
    _ = -m := by rw [h, mul_div_cancel_right₀ _ hden]; ring

theorem theta_parabola (hab : a < b) : theta (parabola f m κ a).exact (parabola f m κ b).exact =
    number (-(m + κ * (a + b))) := by
  have hne : b - a ≠ 0 := (sub_pos.mpr hab).ne'
  simp only [theta, End.exact, parabola, ofScientific_eq, number_sub, number_mul, number_div hne,
    number_add]
  congr 1
  field_simp
  norm_num
  ring

theorem cubicGamma_parabola [SquareRoot K] (hκ : 0 < κ) (hab : a < b) :
    cubicGamma (number (-(m + κ * (a + b)))) (number (m + (κ + κ) * a))
      (number (m + (κ + κ) * b)) = number (κ * (b - a)) := by
  have hpos : 0 < κ * (b - a) := mul_pos hκ (sub_pos.mpr hab)
  rw [cubicGamma_of_square (c := κ * (b - a)) (by ring), abs_of_pos hpos]

theorem cubicFrom_parabola [SquareRoot K] (hκ : 0 < κ) (hab : a < b) :
    cubicFrom (parabola f m κ a).exact (parabola f m κ b).exact = number (vertex m κ) := by
  have hpos : 0 < κ * (b - a) := mul_pos hκ (sub_pos.mpr hab)
  have hden : κ * (b - a) - (m + (κ + κ) * a) + κ * (b - a) + (m + (κ + κ) * b) ≠ 0 := by
    have : κ * (b - a) - (m + (κ + κ) * a) + κ * (b - a) + (m + (κ + κ) * b) =
      4 * (κ * (b - a)) := by ring
    rw [this]
    positivity
  simp only [cubicFrom, theta_parabola hab]
  simp only [End.exact, parabola, cubicGamma_parabola hκ hab, oriented, number_lt, hab.not_gt,
    decide_false, Bool.false_eq_true, if_false, number_sub, number_add, number_div hden, number_mul]
  exact congrArg number (step_to_vertex hκ hden (by ring))

theorem cubicToward_parabola [SquareRoot K] (hκ : 0 < κ) (hab : a < b) :
    cubicToward (number (-(m + κ * (a + b)))) (parabola f m κ a).exact (parabola f m κ b).exact =
      number (vertex m κ) := by
  have hpos : 0 < κ * (b - a) := mul_pos hκ (sub_pos.mpr hab)
  have hden : -(κ * (b - a)) - (m + (κ + κ) * b) + -(κ * (b - a)) + (m + (κ + κ) * a) ≠ 0 := by
    have : -(κ * (b - a)) - (m + (κ + κ) * b) + -(κ * (b - a)) + (m + (κ + κ) * a) =
      -(4 * (κ * (b - a))) := by ring
    rw [this, neg_ne_zero]
    positivity
  simp only [cubicToward, End.exact, parabola, cubicGamma_parabola hκ hab, oriented, number_lt, hab,
    decide_true, if_true, number_neg, number_sub, number_add, number_div hden, number_mul]
  exact congrArg number (step_to_vertex hκ hden (by ring))

theorem secant_parabola (hκ : 0 < κ) (hab : a < b) :
    secant (parabola f m κ a).exact (parabola f m κ b).exact = number (vertex m κ) := by
  have hpos : 0 < (κ + κ) * (b - a) := mul_pos (add_pos hκ hκ) (sub_pos.mpr hab)
  have hden : m + (κ + κ) * b - (m + (κ + κ) * a) ≠ 0 := by
    rw [add_sub_add_left_eq_sub, ← mul_sub]
    exact hpos.ne'
  simp only [secant, End.exact, parabola, number_sub, number_div hden, number_mul, number_add]
  exact congrArg number (step_to_vertex hκ hden (by ring))

theorem quadraticFrom_parabola (hκ : 0 < κ) (hab : a < b) :
    quadraticFrom (parabola f m κ a).exact (parabola f m κ b).exact = number (vertex m κ) := by
  have hne : b - a ≠ 0 := (sub_pos.mpr hab).ne'
  have hden : (f + m * a + κ * a * a - (f + m * b + κ * b * b)) / (b - a) + (m + (κ + κ) * a) =
      -(κ * (b - a)) := by
    rw [div_add' _ _ _ hne, div_eq_iff hne]
    ring
  have hκ' : -(κ * (b - a)) ≠ 0 := neg_ne_zero.mpr (mul_ne_zero hκ.ne' hne)
  have htwo : (2.0 : K) ≠ 0 := by norm_num
  simp only [quadraticFrom, End.exact, parabola, ofScientific_eq, number_sub, number_div hne,
    number_add, hden, number_div hκ', number_div htwo, number_mul]
  rw [div_div]
  refine congrArg number (step_to_vertex hκ (mul_ne_zero hκ' htwo) ?_)
  norm_num
  ring

/-- From an end where the parabola falls to a trial that is higher or where it rises, every formula
leads to the vertex, which lies between the two. -/
theorem trialStep_parabola [SquareRoot K] (hκ : 0 < κ) (hab : a < b)
    (hfalls : m + (κ + κ) * a < 0) (bracketed : Bool) (low high : Exact K)
    (hturn : (parabola f m κ a).exact.value < (parabola f m κ b).exact.value ∨
      opposite (parabola f m κ b).exact.slope (parabola f m κ a).exact.slope = true) :
    trialStep (parabola f m κ a).exact y (parabola f m κ b).exact bracketed low high =
      number (vertex m κ) ∧ 0 < m + (κ + κ) * b := by
  have hgap : 0 < κ * (b - a) := mul_pos hκ (sub_pos.mpr hab)
  unfold trialStep
  by_cases hrise : (parabola f m κ a).exact.value < (parabola f m κ b).exact.value
  · refine ⟨?_, ?_⟩
    · rw [if_pos hrise, stepAfterRise, cubicFrom_parabola hκ hab, quadraticFrom_parabola hκ hab]
      exact if_pos (by simp [End.exact])
    · simp only [End.exact, parabola, number_lt] at hrise
      have hmean : 0 < (b - a) * (m + κ * (a + b)) := by linarith
      have := (mul_pos_iff_of_pos_left (sub_pos.mpr hab)).mp hmean
      linarith
  · have hopp := hturn.resolve_left hrise
    refine ⟨?_, ?_⟩
    · rw [if_neg hrise, if_pos hopp, stepAcross, theta_parabola hab, cubicToward_parabola hκ hab,
        secant_parabola hκ hab]
      exact if_neg (Exact.lt_irrefl _)
    · rw [End.exact_slope, End.exact_slope, opposite_number, decide_eq_true_eq] at hopp
      exact pos_of_mul_neg_left hopp hfalls.le

/-- The vertex lies between an end where the parabola falls and one where it rises. -/
theorem between_vertex (hκ : 0 < κ) (ha : m + (κ + κ) * a < 0) (hb : 0 < m + (κ + κ) * b) :
    a < vertex m κ ∧ vertex m κ < b := by
  rw [vertex, lt_div_iff₀ (add_pos hκ hκ), div_lt_iff₀ (add_pos hκ hκ)]
  constructor <;> linarith

/-- At the share `w` of the way to the vertex the slope has lost that share. The whole way gains half
as much as the tangent at the start. -/
theorem parabola_share (hκ : 0 < κ) (w : K) :
    (parabola f m κ (w * vertex m κ)).value = f + w * (m * vertex m κ) * (1 - w / 2) ∧
      (parabola f m κ (w * vertex m κ)).slope = (1 - w) * m := by
  have hzero : (κ + κ) * vertex m κ = -m := mul_div_cancel₀ (-m) (add_pos hκ hκ).ne'
  have hcurve : κ * vertex m κ = -m / 2 := by linarith
  simp only [parabola]
  constructor
  · calc f + m * (w * vertex m κ) + κ * (w * vertex m κ) * (w * vertex m κ)
        = f + m * (w * vertex m κ) + κ * vertex m κ * (w * w * vertex m κ) := by ring
      _ = f + w * (m * vertex m κ) * (1 - w / 2) := by rw [hcurve]; ring
  · linear_combination w * hzero

/-- The step after a trial that brackets is the vertex, strictly between the ends. -/
theorem safeguardedStep_parabola [SquareRoot K] (hκ : 0 < κ) (hab : a < b)
    (hfalls : m + (κ + κ) * a < 0) {low high : Exact K}
    (hb : (safeguardedStep (parabola f m κ a).exact y (parabola f m κ b).exact false low
      high).bracketed = true) :
    (safeguardedStep (parabola f m κ a).exact y (parabola f m κ b).exact false low high).next =
      number (vertex m κ) ∧ a < vertex m κ ∧ vertex m κ < b := by
  obtain ⟨hrise, h⟩ | ⟨-, hopp, h⟩ | ⟨-, -, h⟩ := safeguardedStep_cases (parabola f m κ a).exact y
    (parabola f m κ b).exact false low high
  · obtain ⟨hnext, hrises⟩ :=
      trialStep_parabola (y := y) hκ hab hfalls false low high (.inl hrise)
    rw [h]
    exact ⟨hnext, between_vertex hκ hfalls hrises⟩
  · obtain ⟨hnext, hrises⟩ :=
      trialStep_parabola (y := y) hκ hab hfalls false low high (.inr hopp)
    rw [h]
    exact ⟨hnext, between_vertex hκ hfalls hrises⟩
  · rw [h] at hb
    cases hb

end Formulas

/-- The function less the line is interpolated after a trial: in the first stage, where the trial is
no higher than the best end and still above the line. -/
def interpolatesModified {α V : Type} [Scalar α] [Space α V] (s : MoreThuente α) (r : Ray α V)
    (slope : α) (st : State α V) (y : Iterate α V) : Bool :=
  outlasts s r slope st y && decide (y.value ≤ st.best.value) &&
    decide (r.start.value + st.trial * (s.c1 * slope) < y.value)

variable {V M : Type} [Space (Exact K) V] {s : MoreThuente (Exact K)} {r : Ray (Exact K) V}
  {c1 c2 low f0 m κ a b t : K} {st : State (Exact K) V} {y : Iterate (Exact K) V}

namespace Accepted
variable (hs : Accepted s c1 c2 low)
include hs

/-- The step after a trial that brackets is the minimizer of the function that was interpolated,
strictly between the best end and the trial. -/
theorem next_parabola [SquareRoot K] (hm : m < 0) (hκ : 0 < κ) (hab : a < b)
    (hsteep : m + (κ + κ) * a < c1 * m) (hbest : st.best = (parabola f0 m κ a).exact)
    (htried : tried r st y = (parabola f0 m κ b).exact) (hb : st.bracketed = false)
    (hb' : (updateAfter s r (number m) st y).bracketed = true) :
    let w := if interpolatesModified s r (number m) st y then 1 - c1 else 1
    (updateAfter s r (number m) st y).next = number (w * vertex m κ) ∧
      a < w * vertex m κ ∧ w * vertex m κ < b := by
  have hg : c1 * m < 0 := mul_neg_of_pos_of_neg hs.c1_pos hm
  have hupdate : updateAfter s r (number m) st y =
      if interpolatesModified s r (number m) st y then
        let u := safeguardedStep (st.best.lowered (s.c1 * number m))
          (st.other.lowered (s.c1 * number m)) ((tried r st y).lowered (s.c1 * number m))
          st.bracketed st.low st.high
        { u with
          best := u.best.raised (s.c1 * number m)
          other := u.other.raised (s.c1 * number m) }
      else safeguardedStep st.best st.other (tried r st y) st.bracketed st.low st.high := rfl
  intro w
  cases hmod : interpolatesModified s r (number m) st y with
  | true =>
    have hfalls : m - c1 * m + (κ + κ) * a < 0 := by linarith
    have hvertex : vertex (m - c1 * m) κ = w * vertex m κ := by
      simp only [w, hmod, if_true, vertex]
      ring
    rw [hupdate, hmod, if_pos rfl] at hb' ⊢
    simp only [hbest, htried, hb, hs.c1_eq, number_mul, parabola_lowered] at hb' ⊢
    rw [← hvertex]
    exact safeguardedStep_parabola hκ hab hfalls hb'
  | false =>
    have hvertex : vertex m κ = w * vertex m κ := by
      simp only [w, hmod, Bool.false_eq_true, if_false, one_mul]
    rw [hupdate, hmod, if_neg Bool.false_ne_true, hbest, htried, hb] at hb' ⊢
    rw [← hvertex]
    exact safeguardedStep_parabola hκ hab (hsteep.trans hg) hb'

/-- Where the lower bound of the search is small against the upper one, the first bracketed interval
is not halved. -/
theorem not_kept (hbounds : s.alphaMin ≤ s.alphaMax / 5.0) (ht : 0 < t)
    (hle : number t ≤ s.alphaMax) {gap : K} (hgap : gap ≤ t) :
    ¬ bisectRatio * (2.0 * (s.alphaMax - s.alphaMin)) ≤ number gap := by
  have hlow := hs.low_lt
  rw [hs.low_eq] at hbounds ⊢
  have h2 : (0 : K) < 2.0 := by norm_num
  have h66 : (0 : K) < 0.66 := by norm_num
  cases hmax : s.alphaMax with
  | number H =>
    rw [hmax] at hbounds hle
    have h5 : (5.0 : K) ≠ 0 := by norm_num
    simp only [ofScientific_eq, number_div h5, number_le] at hbounds hle
    simp only [bisectRatio, ofScientific_eq, number_sub, number_mul, number_le, not_le]
    rw [le_div_iff₀ (by norm_num)] at hbounds
    norm_num at hbounds ⊢
    linarith
  | infinity d =>
    rw [hmax] at hlow
    obtain rfl : d = false := hlow
    have hdiff : infinity false - number low = (infinity false : Exact K) := rfl
    rw [hdiff, bisectRatio, ofScientific_eq, ofScientific_eq, number_mul_infinity h2,
      number_mul_infinity h66]
    exact fun h => by cases h
  | undefined =>
    rw [hmax] at hlow
    exact hlow.elim

/-- The minimizer, and the one of the function less the line, meet the strong Wolfe conditions. -/
theorem strong_parabola (hc1 : c1 ≤ 1 / 2) (hm : m < 0) (hκ : 0 < κ)
    (hf0 : r.start.value = number f0) {w : K} (hw : w = 1 ∨ w = 1 - c1)
    (hvalue : y.value = number (parabola f0 m κ (w * vertex m κ)).value)
    (hslope : Space.inner y.gradient r.direction =
      number (parabola f0 m κ (w * vertex m κ)).slope) :
    Strong s r (number m) (number (w * vertex m κ), y) := by
  have hgain : m * vertex m κ < 0 :=
    mul_neg_of_neg_of_pos hm (div_pos (neg_pos.mpr hm) (add_pos hκ hκ))
  have hc1' : c1 < 1 := hs.c1_lt.trans hs.c2_lt
  have hwpos : 0 < w := by rcases hw with rfl | rfl <;> linarith [hs.c1_pos]
  have hwle : w ≤ 1 := by rcases hw with rfl | rfl <;> linarith [hs.c1_pos]
  have hwline : 0 ≤ 1 - w / 2 - c1 := by rcases hw with rfl | rfl <;> linarith [hs.c1_pos]
  have hflat : 1 - w ≤ c2 := by rcases hw with rfl | rfl <;> linarith [hs.c1_pos, hs.c1_lt]
  obtain ⟨hparabola, hflattened⟩ := parabola_share (f := f0) (m := m) hκ w
  have hdrop : w * (m * vertex m κ) < 0 := mul_neg_of_pos_of_neg hwpos hgain
  refine ⟨?_, ?_, ?_⟩
  · rw [hvalue, hf0, hs.c1_eq, hparabola, number_mul, number_mul, number_add, number_le]
    have := mul_nonpos_of_nonpos_of_nonneg hdrop.le hwline
    linarith
  · rw [hvalue, hf0, hparabola, number_lt]
    have := mul_neg_of_neg_of_pos hdrop (show 0 < 1 - w / 2 by linarith)
    linarith
  · rw [hslope, hs.c2_eq, abs_number, abs_number, number_mul, number_le, hflattened, abs_mul,
      abs_of_nonneg (sub_nonneg.mpr hwle)]
    exact mul_le_mul_of_nonneg_right hflat (abs_nonneg m)

end Accepted

end Downhill.MoreThuente

namespace Downhill
variable {K M : Type} [ExactField K] {n : ℕ} {p : Problem (Exact K) (Vector (Exact K) n) M}
  {r : Ray (Exact K) (Vector (Exact K) n)} {f0 m κ t : K} {s : MoreThuente (Exact K)}
  {slope alpha : Exact K} {asked : Option (Exact K)} {l l₁ l₂ : Ledger (Exact K) (Vector (Exact K) n)}
  {st : MoreThuente.State (Exact K) (Vector (Exact K) n)}
  {y : Iterate (Exact K) (Vector (Exact K) n)} {k : ℕ}

open Exact MoreThuente

/-- Forward along a ray the problem is a parabola, and the start comes with its value and slope. -/
structure Ray.Parabolic (r : Ray (Exact K) (Vector (Exact K) n))
    (p : Problem (Exact K) (Vector (Exact K) n) M) (f0 m κ : K) : Prop where
  value : ∀ t, 0 ≤ t → p.value (r.along (number t)) = .ok (number (f0 + m * t + κ * t * t))
  gradient : ∀ t, 0 ≤ t → ∃ g, p.gradient (r.along (number t)) = .ok g ∧
    dot g r.direction = number (m + (κ + κ) * t)
  start_value : r.start.value = number f0
  start_slope : dot r.start.gradient r.direction = number m

namespace Ray.Parabolic
variable (hr : r.Parabolic p f0 m κ)
include hr

/-- What a search hears is a point of the parabola. -/
theorem tried_eq (hy : MoreThuente.Hears p.oracle.recorded r st l₁ y l₂) (ht : st.trial = number t)
    (hpos : 0 ≤ t) : tried r st y = (parabola f0 m κ t).exact := by
  obtain ⟨hvalue, hgradient⟩ := hy.faithful p.quiet_oracle
  have hpoint : y.point = r.along (number t) := ht ▸ hy.point_eq
  rw [hpoint] at hvalue hgradient
  obtain ⟨g, hg, hslope⟩ := hr.gradient t hpos
  have hgradient' : y.gradient = g := Except.ok.inj (hgradient.symm.trans hg)
  have hvalue' : y.value = number (f0 + m * t + κ * t * t) :=
    Except.ok.inj (hvalue.symm.trans (hr.value t hpos))
  rw [tried, ht, hvalue', hgradient', show Space.inner g r.direction = _ from hslope]
  rfl

theorem exists_hears (ht : st.trial = number t) (hpos : 0 ≤ t)
    (l : Ledger (Exact K) (Vector (Exact K) n)) :
    ∃ y l', MoreThuente.Hears p.oracle.recorded r st l y l' := by
  obtain ⟨g, hg, hslope⟩ := hr.gradient t hpos
  obtain ⟨z, -, rfl, -, -⟩ := exists_of_dot_eq hslope
  obtain ⟨l', hl'⟩ := exists_hears_of_faithful (o := p.oracle)
    (y := ⟨r.along (number t), number (f0 + m * t + κ * t * t), lift z⟩) p.quiet_oracle
    (congrArg r.along ht.symm) ⟨hr.value t hpos, hg⟩ rfl (allFinite_lift z) l
  exact ⟨_, l', hl'⟩

/-- An end that was tested is a point of the parabola. -/
theorem end_eq {e : End K} (he : e = ⟨0, f0, m⟩ ∨ 0 < e.step ∧ Tested s p r slope alpha l k e) :
    e = parabola f0 m κ e.step := by
  obtain rfl | ⟨hpos, -, hvalue, g, hgradient, hslope⟩ := he
  · simp [parabola]
  · have hvalue' := Except.ok.inj (hvalue.symm.trans (hr.value _ hpos.le))
    obtain ⟨g', hg', hslope'⟩ := hr.gradient _ hpos.le
    obtain rfl := Except.ok.inj (hgradient.symm.trans hg')
    obtain ⟨step, value, d⟩ := e
    obtain rfl : value = f0 + m * step + κ * step * step := number.inj hvalue'
    obtain rfl : d = m + (κ + κ) * step := number.inj (hslope.trans hslope')
    rfl

end Ray.Parabolic

namespace MoreThuente

/-- The width of the interval that the first trial which brackets leaves, and what lies inside. -/
theorem Update.MovesEnds.exists_ends {u : Update (Exact K)} {other : Exact K} {a b : K}
    (h : u.MovesEnds (number a) other (number b) false) (hb : u.bracketed = true) (hab : a < b) :
    ∃ a' b', u.best.step = number a' ∧ u.other.step = number b' ∧ |b' - a'| = b - a ∧
      ∀ t, a < t → t < b → Between a' b' t := by
  have hgap : 0 < b - a := sub_pos.mpr hab
  obtain ⟨hx, hy, -⟩ | ⟨hx, hy, -⟩ | ⟨-, -, hb'⟩ := h
  · exact ⟨a, b, hx, hy, abs_of_pos hgap, fun t hat htb => .inl ⟨hat, htb⟩⟩
  · refine ⟨b, a, hx, hy, ?_, fun t hat htb => .inr ⟨hat, htb⟩⟩
    rw [abs_sub_comm, abs_of_pos hgap]
  · cases hb.symm.trans hb'

section Bracketed
variable {c1 c2 low : K} (hs : Accepted s c1 c2 low) (hr : r.Parabolic p f0 m κ) (hm : m < 0)
  (hκ : 0 < κ)
include hs hr hm hκ

/-- The trial after the one that brackets is the minimizer of the function that was interpolated. -/
theorem exists_trial_parabola [SquareRoot K] (hbounds : s.alphaMin ≤ s.alphaMax / 5.0)
    (hxtol : s.xtol = 0) {a : K} (ha : 0 < a)
    (h : Updates s p.oracle.recorded r (number m) (number a) l k st y)
    (hopen : st.bracketed = false) (hb : (updateAfter s r (number m) st y).bracketed = true)
    (hunmoved : ¬ Moved s st (updateAfter s r (number m) st y)) :
    let w := if interpolatesModified s r (number m) st y then 1 - c1 else 1
    ∃ l', Reaches s p.oracle.recorded r (number m) (number a) l (k + 1)
        (after s r (number m) st y) l' ∧
      (after s r (number m) st y).trial = number (w * vertex m κ) := by
  intro w
  obtain ⟨l₁, l₂, hst, hy⟩ := h.heard
  obtain ⟨x, e, b, hinv⟩ := exists_invariant hs hm ha hr.start_value hr.start_slope ⟨l₁, hst⟩
  obtain ⟨hab, -, hhigh, -⟩ := hinv.ahead hopen
  have hx := hinv.interval.best_nonneg
  have hbpos : 0 < b := hx.trans_lt hab
  have hend : x = parabola f0 m κ x.step := hr.end_eq hinv.best_tested
  have hsteep : m + (κ + κ) * x.step < c1 * m := by
    have := hinv.interval.steep (hinv.interval.unbracketed hopen)
    rwa [hend] at this
  have htried := hr.tried_eq hy hinv.trial_eq hbpos.le
  have hbest : st.best = (parabola f0 m κ x.step).exact := by rw [hinv.best_eq, ← hend]
  obtain ⟨hnext, hleft, hright⟩ := hs.next_parabola hm hκ hab hsteep hbest htried hopen hb
  have hmoves := updateAfter_movesEnds s r (number m) st y
  rw [hinv.best_eq, End.exact_step, hinv.trial_eq, hopen] at hmoves
  obtain ⟨a', b', hbest', hother', hgap, hbetween⟩ := hmoves.exists_ends hb hab
  have hproposal : proposal st (updateAfter s r (number m) st y) = number (w * vertex m κ) := by
    have hkept : ¬ bisectRatio * (2.0 * (s.alphaMax - s.alphaMin)) ≤ number |b' - a'| :=
      hs.not_kept hbounds hbpos hhigh (by linarith)
    rw [← hnext, proposal, hbest', hother', number_sub, abs_number, hst.previousWidth_eq hopen,
      decide_eq_false hkept, Bool.and_false]
    exact if_neg Bool.false_ne_true
  have hclamp : Scalar.clamp s.alphaMin s.alphaMax
      (proposal st (updateAfter s r (number m) st y)) = number (w * vertex m κ) :=
    (not_not.mp hunmoved).trans hproposal
  have hfin : Scalar.isFinite (updateAfter s r (number m) st y).next = true := by
    rw [hnext]
    rfl
  refine ⟨l₂, reaches_succ.mpr ⟨st, l₁, hst, ?_⟩, ?_⟩
  · rw [hy.perform_attempt rfl, judge_eq_after _ _ _ _ _ h.rejected h.unstopped hfin]
  · exact trial_settle_of_between hb hbest' hother' hxtol hclamp (hbetween _ hleft hright)

/-- A search that reaches a minimizer returns it. -/
theorem exists_search_of_trial (hc1 : c1 ≤ 1 / 2)
    (hprepare : r.prepare s.alpha0 asked = .ok (number m, alpha))
    (hst : Reaches s p.oracle.recorded r (number m) alpha l k st l₁) (hcap : k < s.maxEvals.toNat)
    {w : K} (hw : w = 1 ∨ w = 1 - c1) (ht : st.trial = number (w * vertex m κ)) :
    ∃ z l', (s.search p.oracle.recorded r asked).perform l =
        (.ok (.accepted (number (w * vertex m κ)) z (k + 1) (k + 1) .strongWolfe), l') ∧
      z.point = r.along (number (w * vertex m κ)) ∧ p.oracle.Faithful z ∧
      Strong s r (number m) (number (w * vertex m κ), z) := by
  have hneg : (number m : Exact K) < 0 := hm
  have hpos : 0 ≤ w * vertex m κ := by
    have hvertex : 0 < vertex m κ := div_pos (neg_pos.mpr hm) (add_pos hκ hκ)
    have hw0 : 0 ≤ w := by rcases hw with rfl | rfl <;> linarith [hs.c1_pos]
    exact mul_nonneg hw0 hvertex.le
  obtain ⟨z, l', hz⟩ := hr.exists_hears ht hpos l₁
  have htried := hr.tried_eq hz ht hpos
  have hstrong : Strong s r (number m) (number (w * vertex m κ), z) :=
    hs.strong_parabola hc1 hm hκ hr.start_value hw (congrArg End.value htried)
      (congrArg End.slope htried)
  have hacc : s.acceptable r.start.value (number m) (tried r st z) = true := by
    rw [tried, ht]
    exact (hs.acceptable_iff hneg (e := (number (w * vertex m κ), z)) ⟨_, hpos, rfl⟩).mpr hstrong
  refine ⟨z, l', ?_, ht ▸ hz.point_eq, hz.faithful p.quiet_oracle, hstrong⟩
  refine perform_search_eq_ok.mpr ⟨_, _, hprepare, .inl ⟨k, hcap, st, l₁, hst, ?_⟩⟩
  rw [hz.perform_attempt rfl, judge_eq_accepted _ _ _ _ _ hacc, hst.trials_eq, ht]

end Bracketed

/-- On a parabola one trial is enough once an interval is bracketed. If a trial brackets, the next
one is the minimizer or, where the function less the line was interpolated, the share `1 - c1` of
it, unless the bounds of the search move it; it meets the strong Wolfe conditions and is returned. -/
theorem search_parabola [SquareRoot K] (hs : s.check = .ok ()) (hc1 : s.c1 ≤ 0.5)
    (hbounds : s.alphaMin ≤ s.alphaMax / 5.0) (hxtol : s.xtol = 0)
    (hprepare : r.prepare s.alpha0 asked = .ok (slope, alpha)) (hr : r.Parabolic p f0 m κ)
    (hκ : 0 < κ) (h : Updates s p.oracle.recorded r slope alpha l k st y)
    (hopen : st.bracketed = false) (hb : (updateAfter s r slope st y).bracketed = true)
    (hcap : k + 1 < s.maxEvals.toNat) (hunmoved : ¬ Moved s st (updateAfter s r slope st y)) :
    let t := if interpolatesModified s r slope st y then (1 - s.c1) * number (vertex m κ)
      else number (vertex m κ)
    (∃ st' l₁, Reaches s p.oracle.recorded r slope alpha l (k + 1) st' l₁ ∧ st'.trial = t) ∧
    ∃ z l', (s.search p.oracle.recorded r asked).perform l =
        (.ok (.accepted t z (k + 2) (k + 2) .strongWolfe), l') ∧
      z.point = r.along t ∧ p.oracle.Faithful z ∧ Strong s r slope (t, z) := by
  obtain ⟨c1, c2, low, hacc⟩ := exists_accepted hs
  obtain ⟨hinner, hneg, hpos, hfin⟩ := Ray.prepare_eq_ok hprepare
  obtain ⟨a, ha, rfl⟩ := exists_of_pos hpos hfin
  obtain rfl : slope = number m := hinner.trans hr.start_slope
  have hhalf : c1 ≤ 1 / 2 := by
    rw [hacc.c1_eq, ofScientific_eq, number_le] at hc1
    exact hc1.trans (by norm_num)
  have hw : (if interpolatesModified s r (number m) st y then 1 - c1 else 1) = 1 ∨
      (if interpolatesModified s r (number m) st y then 1 - c1 else 1) = 1 - c1 := by
    split_ifs
    · exact .inr rfl
    · exact .inl rfl
  have htarget : (if interpolatesModified s r (number m) st y then
      (1 - s.c1) * number (vertex m κ) else number (vertex m κ)) =
      number ((if interpolatesModified s r (number m) st y then 1 - c1 else 1) * vertex m κ) := by
    rw [hacc.c1_eq]
    split_ifs
    · simp
    · rw [one_mul]
  intro t
  simp only [t, htarget]
  obtain ⟨l₁, hst', ht⟩ :=
    exists_trial_parabola hacc hr hneg hκ hbounds hxtol ha h hopen hb hunmoved
  refine ⟨⟨_, l₁, hst', ht⟩, ?_⟩
  exact exists_search_of_trial hacc hr hneg hκ hhalf hprepare hst' hcap hw ht

/-- On `v² - 2v` the first trial at `3/2` is no higher than the start and above the line of the
constant `0.4`, so the next trial is `3/5` of the way to the minimizer, and is returned. -/
theorem search_parabola_shallow :
    let p : Problem (Exact ℚ) (Vector (Exact ℚ) 1) (Matrix (Exact ℚ) 1) :=
      ⟨"parabola", none, fun v => .ok (first v * first v - (first v + first v)),
        some fun v => .ok #v[first v + first v - (1 + 1)], none, gradientTest⟩
    let s : MoreThuente (Exact ℚ) := ⟨1.5, 0.4, 0.9, 0, 1e-20, 1e20, 40⟩
    let r : Ray (Exact ℚ) (Vector (Exact ℚ) 1) := ⟨⟨#v[0], 0, #v[-(1 + 1)]⟩, #v[1]⟩
    ∃ z l, (s.search p.oracle.recorded r none).perform {} =
        (.ok (.accepted (number (3 / 5)) z 2 2 .strongWolfe), l) ∧
      Strong s r (number (-2)) (number (3 / 5), z) := by
  intro p s r
  have hcheck : s.check = .ok () := by decide +kernel
  have hprepare : r.prepare s.alpha0 none = .ok (number (-2), 1.5) := by decide +kernel
  have hfirst : ∀ t : ℚ, first (r.along (number t)) = number t := by
    intro t
    simp [r, Ray.along]
  have hdot : ∀ a : ℚ, dot #v[number a] (#v[number 1] : Vector (Exact ℚ) 1) = number a := by
    intro a
    simp [dot, Vector.sum]
  have hr : r.Parabolic p 0 (-2) 1 := by
    refine ⟨fun t _ => ?_, fun t _ => ⟨_, rfl, ?_⟩, rfl, by decide +kernel⟩
    · change Except.ok (first (r.along (number t)) * first (r.along (number t)) -
        (first (r.along (number t)) + first (r.along (number t)))) = _
      rw [hfirst, number_mul, number_add, number_sub]
      congr 2
      ring
    · change dot #v[first (r.along (number t)) + first (r.along (number t)) - number (1 + 1)]
        #v[number 1] = _
      rw [hfirst, number_add, number_sub, hdot]
      congr 1
      ring
  let st : State (Exact ℚ) (Vector (Exact ℚ) 1) := s.initial 0 (number (-2)) 1.5
  let y : Iterate (Exact ℚ) (Vector (Exact ℚ) 1) := ⟨#v[1.5], -0.75, #v[1]⟩
  obtain ⟨l, hy⟩ : ∃ l, Hears p.oracle.recorded r st {} y l :=
    exists_hears_of_faithful p.quiet_oracle (by decide +kernel)
      ⟨by decide +kernel, by decide +kernel⟩ rfl (by decide +kernel) {}
  have hst : Reaches s p.oracle.recorded r (number (-2)) 1.5 {} 0 st {} :=
    Prod.ext (by decide +kernel) rfl
  have hupdates : Updates s p.oracle.recorded r (number (-2)) 1.5 {} 0 st y :=
    ⟨⟨{}, l, hst, hy⟩, by decide +kernel, by decide +kernel⟩
  have hunmoved : ¬ Moved s st (updateAfter s r (number (-2)) st y) := by
    rw [Moved, not_not]
    decide +kernel
  have htarget : (if interpolatesModified s r (number (-2)) st y then
      (1 - s.c1) * number (vertex (-2) 1) else number (vertex (-2) 1)) = number (3 / 5) := by
    decide +kernel
  obtain ⟨-, z, l', hsearch, -, -, hstrong⟩ := search_parabola hcheck (by decide +kernel)
    (by decide +kernel) rfl hprepare hr one_pos hupdates rfl (by decide +kernel)
    (by decide +kernel) hunmoved
  rw [htarget] at hsearch hstrong
  exact ⟨z, l', hsearch, hstrong⟩

end MoreThuente

end Downhill
