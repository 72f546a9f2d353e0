import Mathlib
import Downhill.LineSearch.MoreThuente.Search
import Downhill.Proofs.Exact.Basic

/-! The interval of the bracketing search over an ordered field. In the first stage the best end is
below the sufficient-decrease line and steeper than it, and the other end, if there is one, is to
the right and farther above the line. In the second stage the best end is the lower one and its
slope points into the interval. Each of the three ways in which a trial changes the ends keeps this.
-/
namespace Downhill.MoreThuente
variable {K : Type} [ExactField K]

/-- How far an end lies above the line of slope `g` that has the value `f0` at step zero. -/
def End.excess (f0 g : K) (e : End K) : K := e.value - f0 - e.step * g

/-- Strictly between two steps, whichever is the smaller one. -/
def Between {α : Type} [LT α] (a b t : α) : Prop := a < t ∧ t < b ∨ b < t ∧ t < a

/-- A trial lies inside a bracketed interval, or beyond the best end. -/
def Inside (x y : End K) (bracketed : Bool) (t : K) : Prop :=
  (bracketed = true → Between x.step y.step t) ∧ (bracketed = false → x.step < t)

/-- What holds of the ends before every trial, for the line of slope `g`. -/
structure Interval (f0 g : K) (x y : End K) (bracketed firstStage : Bool) : Prop where
  best_nonneg : 0 ≤ x.step
  other_nonneg : 0 ≤ y.step
  best_excess : x.excess f0 g ≤ 0
  unbracketed : bracketed = false → firstStage = true
  steep : firstStage = true → x.slope < g
  first : bracketed = true → firstStage = true → x.step < y.step ∧
    x.excess f0 g < y.excess f0 g ∧ (0 < y.excess f0 g ∨ x.value < y.value)
  second : firstStage = false → x.value ≤ y.value ∧ x.slope * (y.step - x.step) < 0 ∧
    x.value ≤ f0 + max x.step y.step * g

/-- The first stage goes on after a trial. -/
def goesOn (f0 g : K) (firstStage : Bool) (p : End K) : Bool :=
  firstStage && !(decide (p.excess f0 g ≤ 0) && decide (0 ≤ p.slope))

/-- A trial that is not accepted, where slopes of modulus up to `k` are flat enough. -/
def Rejected (f0 g k : K) (p : End K) : Prop :=
  ¬ (p.excess f0 g ≤ 0 ∧ p.value < f0 ∧ |p.slope| ≤ k)

theorem goesOn_eq_false_iff {f0 g : K} {firstStage : Bool} {p : End K} :
    goesOn f0 g firstStage p = false ↔
      firstStage = false ∨ p.excess f0 g ≤ 0 ∧ 0 ≤ p.slope := by
  cases firstStage <;> simp [goesOn]

theorem goesOn_eq_true_iff {f0 g : K} {firstStage : Bool} {p : End K} :
    goesOn f0 g firstStage p = true ↔
      firstStage = true ∧ (p.excess f0 g ≤ 0 → p.slope < 0) := by
  cases firstStage <;> simp [goesOn, imp_iff_not_or]

theorem End.excess_nonpos_iff {f0 g : K} {e : End K} :
    e.excess f0 g ≤ 0 ↔ e.value ≤ f0 + e.step * g := by
  rw [End.excess, sub_nonpos, sub_le_iff_le_add', add_comm]

variable {f0 g k : K} {x y p : End K} {bracketed firstStage : Bool}

theorem Interval.initial {m : K} (h : m < g) :
    Interval f0 g ⟨0, f0, m⟩ ⟨0, f0, m⟩ false true where
  best_nonneg := le_rfl
  other_nonneg := le_rfl
  best_excess := by simp [End.excess]
  unbracketed _ := rfl
  steep _ := h
  first := nofun
  second := nofun

theorem Between.le_max {a b t : K} (h : Between a b t) : t ≤ max a b := by
  obtain ⟨-, hlt⟩ | ⟨-, hlt⟩ := h
  · exact le_max_of_le_right hlt.le
  · exact le_max_of_le_left hlt.le

theorem mul_sub_neg_of_between {a b c t : K} (h : c * (b - a) < 0)
    (ht : Between a b t) : c * (t - a) < 0 := by
  obtain ⟨hat, htb⟩ | ⟨hbt, hta⟩ := ht
  · have hc : c < 0 := by
      by_contra hn
      exact h.not_ge (mul_nonneg (not_lt.mp hn) (by linarith))
    exact mul_neg_of_neg_of_pos hc (by linarith)
  · have hc : 0 < c := by
      by_contra hn
      exact h.not_ge (mul_nonneg_of_nonpos_of_nonpos (not_lt.mp hn) (by linarith))
    exact mul_neg_of_pos_of_neg hc (by linarith)

namespace Interval

theorem bracketed_of_second (h : Interval f0 g x y bracketed firstStage)
    (hsecond : firstStage = false) : bracketed = true := by
  cases hb : bracketed with
  | true => rfl
  | false => exact absurd (h.unbracketed hb) (by simp [hsecond])

variable (h : Interval f0 g x y bracketed firstStage) (hin : Inside x y bracketed p.step)
include h hin

theorem pos_of_inside : 0 < p.step := by
  have hx := h.best_nonneg
  have hy := h.other_nonneg
  cases bracketed with
  | false => exact hx.trans_lt (hin.2 rfl)
  | true =>
    obtain ⟨hlt, -⟩ | ⟨hlt, -⟩ := hin.1 rfl
    · exact hx.trans_lt hlt
    · exact hy.trans_lt hlt

theorem right_of_first (hfirst : firstStage = true) : x.step < p.step := by
  cases hb : bracketed with
  | false => exact hin.2 hb
  | true =>
    obtain ⟨hlt, -⟩ | ⟨hy, hx⟩ := hin.1 hb
    · exact hlt
    · exact absurd (h.first hb hfirst).1 (hy.trans hx).not_gt

variable (hg : g < 0)
include hg

omit hin in
/-- The line at the larger end lies below the line at a smaller step. -/
theorem bound_le (hsecond : firstStage = false) {t : K} (ht : t ≤ max x.step y.step) :
    x.value ≤ f0 + t * g := by
  obtain ⟨-, -, hbound⟩ := h.second hsecond
  have hline : max x.step y.step * g ≤ t * g := mul_le_mul_of_nonpos_right ht hg.le
  linarith

theorem excess_nonpos (hle : p.value ≤ x.value)
    (hline : goesOn f0 g firstStage p = true → p.excess f0 g ≤ 0) : p.excess f0 g ≤ 0 := by
  cases hgo : goesOn f0 g firstStage p with
  | true => exact hline hgo
  | false =>
    obtain hsecond | ⟨hex, -⟩ := goesOn_eq_false_iff.mp hgo
    · have hmax := (hin.1 (h.bracketed_of_second hsecond)).le_max
      have hbound := h.bound_le hg hsecond hmax
      simp only [End.excess]
      linarith
    · exact hex

omit h hin in
theorem lt_of_excess (hpos : 0 < p.step) (hex : p.excess f0 g ≤ 0) : p.value < f0 := by
  have := mul_neg_of_pos_of_neg hpos hg
  simp only [End.excess] at hex
  linarith

/-- A rejected trial below the line is steep, downwards or upwards. -/
theorem steep_of_rejected (hgk : -g < k) (hr : Rejected f0 g k p) (hex : p.excess f0 g ≤ 0) :
    p.slope < g ∨ 0 < p.slope := by
  have hlow := lt_of_excess hg (h.pos_of_inside hin) hex
  have hk : k < |p.slope| := not_le.mp fun hle => hr ⟨hex, hlow, hle⟩
  obtain hpos | hneg := lt_abs.mp hk
  · exact .inr (by linarith)
  · exact .inl (by linarith)

/-- The trial becomes the other end: it is higher than the best end, or above the line while the
first stage goes on. -/
theorem rise (hrise : x.value < p.value ∨ goesOn f0 g firstStage p = true ∧ 0 < p.excess f0 g) :
    Interval f0 g x p true (goesOn f0 g firstStage p) where
  best_nonneg := h.best_nonneg
  other_nonneg := (h.pos_of_inside hin).le
  best_excess := h.best_excess
  unbracketed := nofun
  steep hgo := h.steep (goesOn_eq_true_iff.mp hgo).1
  first _ hgo := by
    have hright := h.right_of_first hin (goesOn_eq_true_iff.mp hgo).1
    refine ⟨hright, ?_, hrise.symm.imp_left And.right⟩
    obtain hlt | ⟨-, hpos⟩ := hrise
    · have := mul_neg_of_pos_of_neg (sub_pos.mpr hright) hg
      simp only [End.excess]
      linarith
    · exact h.best_excess.trans_lt hpos
  second hgo := by
    have hlt : x.value < p.value := by
      obtain hlt | ⟨htrue, -⟩ := hrise
      · exact hlt
      · simp [hgo] at htrue
    cases hf : firstStage with
    | true =>
      have hright := h.right_of_first hin hf
      have hex := (goesOn_eq_false_iff.mp hgo).resolve_left (by simp [hf])
      refine ⟨hlt.le, mul_neg_of_neg_of_pos ((h.steep hf).trans hg) (sub_pos.mpr hright), ?_⟩
      rw [max_eq_right hright.le]
      simp only [End.excess] at hex
      linarith [hex.1]
    | false =>
      have hbetween := hin.1 (h.bracketed_of_second hf)
      refine ⟨hlt.le, mul_sub_neg_of_between (h.second hf).2.1 hbetween, ?_⟩
      exact h.bound_le hg hf (max_le (le_max_left _ _) hbetween.le_max)

variable (hle : p.value ≤ x.value) (hex : p.excess f0 g ≤ 0)
include hle hex

/-- The trial becomes the best end and the best end the other one: the slopes are opposite. -/
theorem across (hopp : p.slope * x.slope < 0) :
    Interval f0 g p x true (goesOn f0 g firstStage p) := by
  have hstop : goesOn f0 g firstStage p = false := by
    by_contra hn
    obtain ⟨hf, hneg⟩ := goesOn_eq_true_iff.mp (Bool.eq_true_of_not_eq_false hn)
    exact hopp.not_gt (mul_pos_of_neg_of_neg (hneg hex) ((h.steep hf).trans hg))
  rw [hstop]
  refine ⟨(h.pos_of_inside hin).le, h.best_nonneg, hex, nofun, nofun, nofun, fun _ => ?_⟩
  cases hf : firstStage with
  | true =>
    have hright := h.right_of_first hin hf
    have hup : 0 < p.slope := by
      by_contra hn
      exact hopp.not_ge (mul_nonneg_of_nonpos_of_nonpos (not_lt.mp hn) ((h.steep hf).trans hg).le)
    refine ⟨hle, mul_neg_of_pos_of_neg hup (sub_neg.mpr hright), ?_⟩
    rw [max_eq_left hright.le]
    simp only [End.excess] at hex
    linarith
  | false =>
    have hbetween := hin.1 (h.bracketed_of_second hf)
    have htoward := mul_sub_neg_of_between (h.second hf).2.1 hbetween
    refine ⟨hle, ?_, ?_⟩
    · have hsquare : 0 < x.slope * x.slope := by
        refine mul_self_pos.mpr fun hzero => ?_
        simp [hzero] at hopp
      have := mul_pos_of_neg_of_neg hopp htoward
      by_contra hn
      have := mul_nonneg (not_lt.mp hn) hsquare.le
      linarith
    · refine hle.trans (h.bound_le hg hf ?_)
      exact max_le hbetween.le_max (le_max_left _ _)

/-- The trial becomes the best end and the other end stays: the slopes are not opposite. -/
theorem onward (hsteep : p.slope < g ∨ 0 < p.slope) (hsame : ¬ p.slope * x.slope < 0) :
    Interval f0 g p y bracketed (goesOn f0 g firstStage p) := by
  have hpos := (h.pos_of_inside hin).le
  cases hf : firstStage with
  | true =>
    have hright := h.right_of_first hin hf
    have hxneg := (h.steep hf).trans hg
    have hpg : p.slope < g := hsteep.resolve_right fun hup =>
      hsame (mul_neg_of_pos_of_neg hup hxneg)
    have hgo : goesOn f0 g true p = true := goesOn_eq_true_iff.mpr ⟨rfl, fun _ => hpg.trans hg⟩
    rw [hgo]
    refine ⟨hpos, h.other_nonneg, hex, fun _ => rfl, fun _ => hpg, fun hb _ => ?_, nofun⟩
    obtain ⟨hxy, -, hother⟩ := h.first hb hf
    have hlt : p.step < y.step := by
      obtain ⟨-, hlt⟩ | ⟨hyp, hpx⟩ := hin.1 hb
      · exact hlt
      · exact absurd hxy (hyp.trans hpx).not_gt
    obtain hy | hy := hother
    · exact ⟨hlt, hex.trans_lt hy, .inl hy⟩
    · have := mul_neg_of_pos_of_neg (sub_pos.mpr hlt) hg
      refine ⟨hlt, ?_, .inr (hle.trans_lt hy)⟩
      simp only [End.excess]
      linarith
  | false =>
    have hb := h.bracketed_of_second hf
    obtain ⟨hxy, hslope, -⟩ := h.second hf
    refine ⟨hpos, h.other_nonneg, hex, by simp [hb], by simp [goesOn], by simp [goesOn],
      fun _ => ⟨hle.trans hxy, ?_, hle.trans (h.bound_le hg hf ?_)⟩⟩
    · obtain ⟨hxp, hpy⟩ | ⟨hyp, hpx⟩ := hin.1 hb
      · have hx : x.slope < 0 := neg_of_mul_neg_left hslope (by linarith)
        have hp : p.slope < g := hsteep.resolve_right fun hup =>
          hsame (mul_neg_of_pos_of_neg hup hx)
        exact mul_neg_of_neg_of_pos (hp.trans hg) (sub_pos.mpr hpy)
      · have hx : 0 < x.slope := pos_of_mul_neg_left hslope (by linarith)
        have hp : 0 < p.slope := hsteep.resolve_left fun hdown =>
          hsame (mul_neg_of_neg_of_pos (hdown.trans hg) hx)
        exact mul_neg_of_pos_of_neg hp (sub_neg.mpr hyp)
    · exact max_le (hin.1 hb).le_max (le_max_right _ _)

end Interval

end Downhill.MoreThuente
