import Downhill.Proofs.LineSearch.MoreThuente.Cubic
import Downhill.Proofs.LineSearch.MoreThuente.Division
import Downhill.Proofs.LineSearch.MoreThuente.Trial

/-! The safeguarded step. Where the best end is the lower one and the function falls from it towards
the trial, each of the four cases moves the ends so that this still holds, and steps strictly into
the interval that it leaves. Nothing that the step divides by is zero. -/
namespace Downhill.MoreThuente

variable {K : Type} [ExactField K] {a b x y p : End K}

open Exact

/-- A number by which one may divide. -/
def Nonzero (v : Exact K) : Prop := ∃ t, t ≠ 0 ∧ v = number t

theorem nonzero_number {t : K} (h : t ≠ 0) : Nonzero (number t) := ⟨t, h, rfl⟩

theorem nonzero_gammaDivisors (theta a b : K) :
    ∀ v ∈ gammaDivisors (number theta) (number a) (number b), Nonzero v := by
  simp only [gammaDivisors, abs_number, larger_number, zero_eq, number_beq, decide_eq_true_eq]
  split_ifs with hscale
  · simp
  · simpa using nonzero_number hscale

theorem Between.mean {c q : K} {a b : K} (hc : Between a b c) (hq : Between a b q) :
    Between a b (c + (q - c) / 2.0) := by
  norm_num
  obtain ⟨hac, hcb⟩ | ⟨hbc, hca⟩ := hc <;> obtain ⟨haq, hqb⟩ | ⟨hbq, hqa⟩ := hq
  · exact .inl ⟨by linarith, by linarith⟩
  · exact absurd (hac.trans hcb) (hbq.trans hqa).not_gt
  · exact absurd (haq.trans hqb) (hbc.trans hca).not_gt
  · exact .inr ⟨by linarith, by linarith⟩

namespace Dips
variable [TrueRoot K] (h : Dips a b)
include h

theorem nonzero_cubicFrom : ∀ v ∈ cubicFromDivisors a.exact b.exact, Nonzero v := by
  have hden := h.shareDivisor_ne
  unfold shareDivisor rootToward at hden
  simp only [cubicFromDivisors, theta_exact h.step_ne, End.exact_slope, End.exact_step,
    cubicGamma_eq_root, oriented_number, number_lt, decide_eq_true_eq, number_sub, number_add,
    List.cons_append, List.forall_mem_cons, List.forall_mem_append]
  exact ⟨nonzero_number h.way_ne, nonzero_gammaDivisors _ _ _, nonzero_number hden,
    List.forall_mem_nil _⟩

theorem nonzero_cubicToward :
    ∀ v ∈ cubicTowardDivisors (number (middle a b)) b.exact a.exact, Nonzero v := by
  have hden := h.shareDivisor_ne
  unfold shareDivisor rootToward at hden
  simp only [cubicTowardDivisors, End.exact_slope, End.exact_step,
    cubicGamma_comm _ b.slope, cubicGamma_eq_root, oriented_number, number_lt, decide_eq_true_eq,
    number_sub, number_add, List.forall_mem_append, List.forall_mem_cons]
  exact ⟨nonzero_gammaDivisors _ _ _, nonzero_number hden, List.forall_mem_nil _⟩

omit [TrueRoot K]

theorem quadraticDivisor_mul_neg :
    ((a.value - b.value) / (b.step - a.step) + a.slope) * (b.step - a.step) < 0 := by
  rw [add_mul, div_mul_cancel₀ _ h.way_ne]
  linarith [h.le, h.falls]

theorem quadraticDivisor_ne : (a.value - b.value) / (b.step - a.step) + a.slope ≠ 0 :=
  left_ne_zero_of_mul h.quadraticDivisor_mul_neg.ne

theorem nonzero_quadraticFrom : ∀ v ∈ quadraticFromDivisors a.exact b.exact, Nonzero v := by
  simp only [quadraticFromDivisors, End.exact_step, End.exact_value, End.exact_slope, number_sub,
    number_div h.way_ne, number_add, ofScientific_eq, List.forall_mem_cons]
  exact ⟨nonzero_number h.way_ne, nonzero_number h.quadraticDivisor_ne,
    nonzero_number (by norm_num), List.forall_mem_nil _⟩

theorem exists_quadraticFrom :
    ∃ t, quadraticFrom a.exact b.exact = number t ∧ Between a.step b.step t := by
  have htwo : (2.0 : K) ≠ 0 := by norm_num
  refine ⟨a.step + a.slope / ((a.value - b.value) / (b.step - a.step) + a.slope) / 2.0 *
    (b.step - a.step), ?_, between_of_share h.way_ne ?_ ?_⟩
  · simp [quadraticFrom, number_div h.way_ne, number_div h.quadraticDivisor_ne, number_div htwo]
  all_goals
    rw [div_div, ← mul_div_mul_right _ _ h.way_ne, mul_right_comm]
    have hneg := h.quadraticDivisor_mul_neg
    have hfalls := h.falls
    rw [add_mul, div_mul_cancel₀ _ h.way_ne] at hneg ⊢
  · exact div_pos_of_neg_of_neg hfalls (mul_neg_of_neg_of_pos hneg (by norm_num))
  · rw [div_lt_one_of_neg (mul_neg_of_neg_of_pos hneg (by norm_num))]
    norm_num
    linarith [h.le]

theorem exists_stepAfterRise [TrueRoot K] :
    ∃ t, stepAfterRise a.exact b.exact = number t ∧ Between a.step b.step t := by
  have htwo : (2.0 : K) ≠ 0 := by norm_num
  obtain ⟨c, hc, hcin⟩ := h.exists_cubicFrom
  obtain ⟨q, hq, hqin⟩ := h.exists_quadraticFrom
  rw [stepAfterRise, hc, hq]
  split_ifs
  · exact ⟨c, rfl, hcin⟩
  · exact ⟨c + (q - c) / 2.0, by simp [number_div htwo], hcin.mean hqin⟩

/-- The cubic step from the other end, for the middle coefficient as it is computed there. -/
theorem exists_cubicToward [TrueRoot K] :
    ∃ t, cubicToward (number (middle a b)) b.exact a.exact = number t ∧
      Between a.step b.step t := by
  rw [cubicToward_middle h.step_ne]
  exact h.exists_cubicFrom

variable (hrises : 0 < b.slope * (b.step - a.step))
include hrises

/-- Between slopes of opposite sign the secant meets zero. -/
theorem exists_secant_between :
    ∃ t, secant b.exact a.exact = number t ∧ Between a.step b.step t := by
  have hneg : (a.slope - b.slope) * (b.step - a.step) < 0 := by linarith [h.falls]
  refine ⟨a.step + a.slope / (a.slope - b.slope) * (b.step - a.step), ?_,
    between_of_share h.way_ne ?_ ?_⟩
  · simp [secant, number_div (left_ne_zero_of_mul hneg.ne)]
  all_goals rw [← mul_div_mul_right _ _ h.way_ne]
  · exact div_pos_of_neg_of_neg h.falls hneg
  · rw [div_lt_one_of_neg hneg]
    linarith

theorem exists_stepAcross [TrueRoot K] :
    ∃ t, stepAcross b.exact a.exact = number t ∧ Between a.step b.step t := by
  obtain ⟨c, hc, hcin⟩ := h.exists_cubicToward
  obtain ⟨s, hs, hsin⟩ := h.exists_secant_between hrises
  rw [stepAcross, theta_exact h.step_ne.symm, middle_comm, hc, hs]
  split_ifs
  · exact ⟨c, rfl, hcin⟩
  · exact ⟨s, rfl, hsin⟩

end Dips

namespace Flattens
variable (h : Flattens x p)
include h

theorem nonzero_cubicBeyond : ∀ v ∈ cubicBeyondDivisors x.exact p.exact, Nonzero v := by
  obtain ⟨gamma, hgamma, hroot⟩ := exists_cubicGamma (middle x p) x.slope p.slope
  have hden := beyondDivisor_ne h.flatter hgamma
  unfold beyondDivisor at hden
  simp only [cubicBeyondDivisors, theta_exact (sub_ne_zero.mp h.step_sub_ne), End.exact_slope,
    End.exact_step, hroot, oriented_number, number_lt, decide_eq_true_eq, number_sub, number_add,
    List.cons_append, List.forall_mem_cons, List.forall_mem_append]
  exact ⟨nonzero_number h.step_sub_ne, nonzero_gammaDivisors _ _ _, nonzero_number hden,
    List.forall_mem_nil _⟩

/-- In a bracketed interval the step stays within the share of it that lies beyond the trial. -/
theorem exists_stepFlattening (hin : Between x.step y.step p.step) {low high : Exact K}
    (hlow : low = number (min x.step y.step)) (hhigh : high = number (max x.step y.step)) :
    ∃ t, stepFlattening x.exact y.exact p.exact true low high = number t ∧
      Between p.step y.step t := by
  have hbound : (if x.step < p.step then high else low) = number y.step := by
    rw [hlow, hhigh]
    obtain ⟨hxp, hpy⟩ | ⟨hyp, hpx⟩ := hin
    · rw [if_pos hxp, max_eq_right (hxp.trans hpy).le]
    · rw [if_neg hpx.not_gt, min_eq_right (hyp.trans hpx).le]
  have hbeyond : Beyond x.step p.step y.step := by
    obtain ⟨hxp, hpy⟩ | ⟨hyp, hpx⟩ := hin
    · exact mul_pos (sub_pos.mpr hpy) (sub_pos.mpr hxp)
    · exact mul_pos_of_neg_of_neg (sub_neg.mpr hyp) (sub_neg.mpr hpx)
  obtain ⟨c, hc, hcin⟩ := h.exists_cubicBeyond hbound hbeyond
  obtain ⟨s, hs, hsin⟩ := h.exists_secant
  obtain ⟨f, hf, hfin⟩ : ∃ f, (if Scalar.abs (number c - number p.step) <
      Scalar.abs (number s - number p.step) then number c else number s) = number f ∧
      Beyond x.step p.step f := by
    split_ifs
    · exact ⟨c, rfl, hcin⟩
    · exact ⟨s, rfl, hsin⟩
  have hlimit : Between p.step y.step (p.step + 0.66 * (y.step - p.step)) :=
    between_of_share (left_ne_zero_of_mul hbeyond.ne') (by norm_num) (by norm_num)
  simp only [stepFlattening, hc, hs, End.exact_step, hf]
  simp only [bisectRatio, ofScientific_eq, number_sub, number_mul, number_add, number_lt, if_true,
    smaller_number, larger_number]
  obtain ⟨hxp, hpy⟩ | ⟨hyp, hpx⟩ := hin
  · rw [if_pos hxp]
    rw [beyond_iff_of_lt hxp] at hfin
    obtain ⟨hl, hr⟩ | ⟨hl, hr⟩ := hlimit
    · exact ⟨_, rfl, .inl ⟨lt_min hl hfin, min_lt_of_left_lt hr⟩⟩
    · exact absurd hpy (hl.trans hr).not_gt
  · rw [if_neg hpx.not_gt]
    have hfp : f < p.step := sub_neg.mp (neg_of_mul_pos_left hfin (sub_neg.mpr hpx).le)
    obtain ⟨hl, hr⟩ | ⟨hl, hr⟩ := hlimit
    · exact absurd hyp (hl.trans hr).not_gt
    · exact ⟨_, rfl, .inr ⟨lt_max_of_lt_left hl, max_lt hr hfp⟩⟩

end Flattens

/-- Seen from an end beyond the trial, in the direction in which the function falls at the trial. -/
theorem mul_sub_neg_of_between_right {a b c t : K} (h : c * (t - a) < 0) (ht : Between a b t) :
    c * (b - t) < 0 := by
  obtain ⟨hat, htb⟩ | ⟨hbt, hta⟩ := ht
  · have hc : c < 0 := neg_of_mul_neg_left h (sub_pos.mpr hat).le
    exact mul_neg_of_neg_of_pos hc (sub_pos.mpr htb)
  · have hc : 0 < c := pos_of_mul_neg_left h (sub_neg.mpr hta).le
    exact mul_neg_of_pos_of_neg hc (sub_neg.mpr hbt)

section Trial
variable (hfalls : x.slope * (p.step - x.step) < 0)
include hfalls

theorem mul_pos_of_opposite (hopp : p.slope * x.slope < 0) : 0 < p.slope * (p.step - x.step) := by
  have hx : x.slope ≠ 0 := left_ne_zero_of_mul hfalls.ne
  have := mul_pos_of_neg_of_neg hopp hfalls
  refine (mul_pos_iff_of_pos_right (mul_self_pos.mpr hx)).mp ?_
  linarith

theorem mul_neg_of_same (hslope : p.slope ≠ 0) (hsame : ¬ p.slope * x.slope < 0) :
    p.slope * (p.step - x.step) < 0 := by
  have hx : x.slope ≠ 0 := left_ne_zero_of_mul hfalls.ne
  have hpos : 0 < p.slope * x.slope :=
    lt_of_le_of_ne (not_lt.mp hsame) (mul_ne_zero hslope hx).symm
  have := mul_neg_of_pos_of_neg hpos hfalls
  refine neg_of_mul_neg_left ?_ (mul_self_nonneg x.slope)
  linarith

theorem flattens_of_abs_lt (hp : p.slope * (p.step - x.step) < 0) (hflat : |p.slope| < |x.slope|) :
    Flattens x p := by
  have hway : 0 < |p.step - x.step| := abs_pos.mpr (right_ne_zero_of_mul hp.ne)
  have := mul_lt_mul_of_pos_right hflat hway
  rw [← abs_mul, ← abs_mul, abs_of_neg hp, abs_of_neg hfalls] at this
  exact ⟨hp, by linarith⟩

end Trial

/-! Every trial falls under one of these cases. -/

section Cases
variable [TrueRoot K] {bracketed : Bool} {low high : Exact K}

section Rise
variable (h : Dips x p) (hrise : x.value < p.value)
include h hrise

theorem exists_trialStep_rise :
    ∃ t, trialStep x.exact y.exact p.exact bracketed low high = number t ∧
      Between x.step p.step t := by
  have hstep : trialStep x.exact y.exact p.exact bracketed low high =
      stepAfterRise x.exact p.exact := if_pos hrise
  rw [hstep]
  exact h.exists_stepAfterRise

theorem nonzero_divisors_rise : ∀ v ∈ divisors x.exact y.exact p.exact bracketed, Nonzero v := by
  have hdivisors : divisors x.exact y.exact p.exact bracketed =
      cubicFromDivisors x.exact p.exact ++ quadraticFromDivisors x.exact p.exact ++ [2.0] :=
    if_pos hrise
  simp only [hdivisors, List.forall_mem_append, List.forall_mem_cons]
  exact ⟨⟨h.nonzero_cubicFrom, h.nonzero_quadraticFrom⟩, nonzero_number (by norm_num),
    List.forall_mem_nil _⟩

end Rise

section Across
variable (h : Dips p x) (hrises : 0 < x.slope * (x.step - p.step))
  (hopp : opposite p.exact.slope x.exact.slope = true)
include h hrises hopp

theorem exists_trialStep_across :
    ∃ t, trialStep x.exact y.exact p.exact bracketed low high = number t ∧
      Between p.step x.step t := by
  have hstep : trialStep x.exact y.exact p.exact bracketed low high =
      stepAcross x.exact p.exact := (if_neg h.le.not_gt).trans (if_pos hopp)
  rw [hstep]
  exact h.exists_stepAcross hrises

theorem nonzero_divisors_across : ∀ v ∈ divisors x.exact y.exact p.exact bracketed, Nonzero v := by
  have hdivisors : divisors x.exact y.exact p.exact bracketed =
      (p.exact.step - x.exact.step) ::
        cubicTowardDivisors (theta x.exact p.exact) x.exact p.exact ++
          [p.exact.slope - x.exact.slope] := (if_neg h.le.not_gt).trans (if_pos hopp)
  have hsecant : (p.slope - x.slope) * (x.step - p.step) < 0 := by linarith [h.falls]
  rw [theta_exact h.step_ne.symm, middle_comm] at hdivisors
  simp only [hdivisors, End.exact_step, End.exact_slope, number_sub, List.cons_append,
    List.forall_mem_append, List.forall_mem_cons]
  exact ⟨nonzero_number (sub_ne_zero.mpr h.step_ne.symm), h.nonzero_cubicToward,
    nonzero_number (left_ne_zero_of_mul hsecant.ne), List.forall_mem_nil _⟩

end Across

section Onward
variable (hdown : p.slope * (p.step - x.step) < 0) (hfalls : x.slope * (p.step - x.step) < 0)
  (hle : p.value ≤ x.value) (hsame : opposite p.exact.slope x.exact.slope = false)
include hdown hfalls hle hsame

omit hdown hfalls [TrueRoot K] in
theorem trialStep_onward : trialStep x.exact y.exact p.exact bracketed low high =
    if |p.slope| < |x.slope| then stepFlattening x.exact y.exact p.exact bracketed low high
    else stepOnward x.exact y.exact p.exact bracketed low high :=
  (if_neg hle.not_gt).trans (if_neg (Bool.eq_false_iff.mp hsame))

omit hdown hfalls [TrueRoot K] in
theorem divisors_onward : divisors x.exact y.exact p.exact bracketed =
    if |p.slope| < |x.slope| then
      cubicBeyondDivisors x.exact p.exact ++ [p.exact.slope - x.exact.slope]
    else if bracketed then
      (y.exact.step - p.exact.step) :: cubicTowardDivisors
        (3.0 * (p.exact.value - y.exact.value) / (y.exact.step - p.exact.step) + y.exact.slope +
          p.exact.slope) y.exact p.exact
    else [] :=
  (if_neg hle.not_gt).trans (if_neg (Bool.eq_false_iff.mp hsame))

omit hdown hfalls hle hsame [TrueRoot K] in
/-- The middle coefficient as the step onward computes it. -/
theorem theta_onward (h : y.step ≠ p.step) :
    3.0 * (p.exact.value - y.exact.value) / (y.exact.step - p.exact.step) + y.exact.slope +
      p.exact.slope = number (middle p y) := by
  simp [middle, number_div (sub_ne_zero.mpr h), add_right_comm]

theorem exists_trialStep_onward (h : Dips p y) (hin : Between x.step y.step p.step)
    (hlow : low = number (min x.step y.step)) (hhigh : high = number (max x.step y.step)) :
    ∃ t, trialStep x.exact y.exact p.exact true low high = number t ∧ Between p.step y.step t := by
  rw [trialStep_onward hle hsame]
  split_ifs with hflat
  · exact (flattens_of_abs_lt hfalls hdown hflat).exists_stepFlattening hin hlow hhigh
  · rw [stepOnward, if_pos rfl, theta_onward h.step_ne]
    exact h.exists_cubicToward

theorem nonzero_divisors_onward (h : bracketed = true → Dips p y) :
    ∀ v ∈ divisors x.exact y.exact p.exact bracketed, Nonzero v := by
  rw [divisors_onward hle hsame]
  split_ifs with hflat hb
  · have hflattens := flattens_of_abs_lt hfalls hdown hflat
    simp only [End.exact_slope, number_sub, List.forall_mem_append, List.forall_mem_cons]
    exact ⟨hflattens.nonzero_cubicBeyond, nonzero_number hflattens.slope_sub_ne,
      List.forall_mem_nil _⟩
  · rw [theta_onward (h hb).step_ne, End.exact_step, End.exact_step, number_sub,
      List.forall_mem_cons]
    exact ⟨nonzero_number (h hb).way_ne, (h hb).nonzero_cubicToward⟩
  · exact List.forall_mem_nil _

end Onward

end Cases

/-- The safeguarded step keeps a valid interval and steps strictly into it. Let the function fall
from the best end towards the trial and, in a bracketed interval, the trial be strictly inside, the best
end be no higher than the other one, and the bounds be those of the interval. Then the new ends are
old ends or the trial; an interval is bracketed if it was, if the trial is higher, or if the slopes
are opposite; the function falls from the best end of a bracketed interval towards the other, which
is no lower, and the new step lies strictly between them. Nothing is divided by zero. -/
theorem safeguardedStep_keeps [TrueRoot K] {bracketed : Bool} {low high : Exact K}
    (hfalls : x.slope * (p.step - x.step) < 0) (hslope : p.slope ≠ 0)
    (hin : bracketed = true → Between x.step y.step p.step ∧ x.value ≤ y.value ∧
      low = number (min x.step y.step) ∧ high = number (max x.step y.step)) :
    ∃ (best other : End K) (next : Exact K) (bracketed' : Bool),
      safeguardedStep x.exact y.exact p.exact bracketed low high =
        ⟨best.exact, other.exact, next, bracketed'⟩ ∧
      (best = x ∨ best = p) ∧ (other = x ∨ other = y ∨ other = p) ∧
      (bracketed' = true ↔ bracketed = true ∨ x.value < p.value ∨ p.slope * x.slope < 0) ∧
      (bracketed' = true → best.value ≤ other.value ∧ best.slope * (other.step - best.step) < 0 ∧
        ∃ t, next = number t ∧ Between best.step other.step t) ∧
      ∀ v ∈ divisors x.exact y.exact p.exact bracketed, Nonzero v := by
  obtain ⟨hrise, h⟩ | ⟨hle, hopp, h⟩ | ⟨hle, hsame, h⟩ :=
    safeguardedStep_cases x.exact y.exact p.exact bracketed low high
  · have hrise := number_lt.mp hrise
    have hdips : Dips x p := ⟨hfalls, hrise.le⟩
    refine ⟨x, p, _, true, h, .inl rfl, .inr (.inr rfl), by simp [hrise], fun _ => ?_,
      nonzero_divisors_rise hdips hrise⟩
    exact ⟨hdips.le, hdips.falls, exists_trialStep_rise hdips hrise⟩
  · have hneg : p.slope * x.slope < 0 := by simpa [opposite_number] using hopp
    have hup := mul_pos_of_opposite hfalls hneg
    have hdips : Dips p x := ⟨by linarith, not_lt.mp (mt number_lt.mpr hle)⟩
    have hrises : 0 < x.slope * (x.step - p.step) := by linarith
    refine ⟨p, x, _, true, h, .inr rfl, .inl rfl, by simp [hneg], fun _ => ?_,
      nonzero_divisors_across hdips hrises hopp⟩
    exact ⟨hdips.le, hdips.falls, exists_trialStep_across hdips hrises hopp⟩
  · have hle := not_lt.mp (mt number_lt.mpr hle)
    have hnot : ¬ p.slope * x.slope < 0 := by simpa [opposite_number] using hsame
    have hdown := mul_neg_of_same hfalls hslope hnot
    have hdips : bracketed = true → Dips p y := fun hb =>
      ⟨mul_sub_neg_of_between_right hdown (hin hb).1, hle.trans (hin hb).2.1⟩
    refine ⟨p, y, _, bracketed, h, .inr rfl, .inr (.inl rfl), by simp [hle.not_gt, hnot],
      fun hb => ?_, nonzero_divisors_onward hdown hfalls hle hsame hdips⟩
    obtain ⟨hbetween, -, hlow, hhigh⟩ := hin hb
    subst hb
    exact ⟨(hdips rfl).le, (hdips rfl).falls,
      exists_trialStep_onward hdown hfalls hle hsame (hdips rfl) hbetween hlow hhigh⟩

/-- A bracketed interval to the left of its best end, where the slope at the trial has flattened. -/
theorem safeguardedStep_keeps_leftward :
    let x : End ℝ := ⟨4, 1 / 2, 1⟩
    let y : End ℝ := ⟨1, 3, -2⟩
    let p : End ℝ := ⟨2, 1 / 4, 1 / 2⟩
    ∃ (best other : End ℝ) (t : ℝ), safeguardedStep x.exact y.exact p.exact true (number 1)
        (number 4) = ⟨best.exact, other.exact, number t, true⟩ ∧
      best.value ≤ other.value ∧ Between best.step other.step t := by
  intro x y p
  have hin : true = true → Between x.step y.step p.step ∧ x.value ≤ y.value ∧
      number 1 = number (min x.step y.step) ∧ number 4 = number (max x.step y.step) := fun _ =>
    ⟨.inr ⟨by norm_num [y, p], by norm_num [x, p]⟩, by norm_num [x, y], by norm_num [x, y],
      by norm_num [x, y]⟩
  obtain ⟨best, other, next, b, hstep, -, -, hb, hinside, -⟩ :=
    safeguardedStep_keeps (by norm_num [x, p]) (by norm_num [p]) hin
  obtain rfl : b = true := hb.mpr (.inl rfl)
  obtain ⟨hle, -, t, rfl, hbetween⟩ := hinside rfl
  exact ⟨best, other, t, hstep, hle, hbetween⟩

end Downhill.MoreThuente
