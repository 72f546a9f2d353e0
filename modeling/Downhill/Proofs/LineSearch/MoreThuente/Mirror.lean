import Downhill.Proofs.LineSearch.MoreThuente.Safeguard

/-! The safeguarded step in a mirror. With all positions and slopes negated and the bounds swapped,
the branches for the two orientations of the interval take each other's place, and every number that
comes out is on the other side. Where interpolation divides by zero the step is infinite, and in the
mirror it is the same infinity. -/
namespace Downhill.MoreThuente

open Exact

/-- An end on the other side of the origin. -/
def End.mirrored {α : Type} [Neg α] (e : End α) : End α := ⟨-e.step, e.value, -e.slope⟩

section Fields
variable {α : Type} [Neg α] (e : End α)

@[simp] theorem End.mirrored_step : e.mirrored.step = -e.step := rfl

@[simp] theorem End.mirrored_value : e.mirrored.value = e.value := rfl

@[simp] theorem End.mirrored_slope : e.mirrored.slope = -e.slope := rfl

end Fields

variable {K : Type} [ExactField K] {x y p : End K} {low high : K} {bracketed : Bool}

/-- A number on the other side of the origin; an infinity stays where it is. -/
def reflect : Exact K → Exact K
  | number t => number (-t)
  | infinity s => infinity s
  | undefined => undefined

/-- The outcome in a mirror. -/
def Update.mirrored (u : Update (Exact K)) : Update (Exact K) :=
  ⟨u.best.mirrored, u.other.mirrored, reflect u.next, u.bracketed⟩

section Moves

/-- A quotient of negated numbers: only an infinity changes its sign, since zero has none. -/
def turned : Exact K → Exact K
  | number t => number t
  | infinity s => infinity !s
  | undefined => undefined

theorem number_div_zero (n : K) : number n / number 0 =
    if n = 0 then undefined else infinity (decide (n < 0)) := if_pos rfl

theorem number_div_neg (n d : K) :
    number (-n) / number (-d) = turned (number n / number d) := by
  rcases eq_or_ne d 0 with rfl | hd
  · rw [neg_zero, number_div_zero, number_div_zero]
    rcases lt_trichotomy n 0 with hn | rfl | hn
    · simp [hn, hn.ne, hn.le, turned]
    · simp [turned]
    · simp [hn, hn.ne', hn.le, turned]
  · rw [number_div (neg_ne_zero.mpr hd), number_div hd, neg_div_neg_eq]
    rfl

theorem infinity_half (s : Bool) : (infinity s : Exact K) / 2.0 = infinity s := by
  have htwo : decide ((2.0 : K) < 0) = false := by norm_num
  change infinity (s != decide ((2.0 : K) < 0)) = _
  rw [htwo, Bool.bne_false]

theorem number_half (t : K) : number t / 2.0 = number (t / 2.0) :=
  number_div (by norm_num)

theorem turned_half (v : Exact K) : turned v / 2.0 = turned (v / 2.0) := by
  cases v with
  | number t => rw [turned, number_half, turned]
  | infinity s => rw [turned, infinity_half, infinity_half, turned]
  | undefined => rfl

/-- The way back times a quotient that turns is the same way. -/
theorem move_mirrored {a h : K} {v : Exact K} (hh : h ≠ 0) :
    number (-a) + turned v * number (-h) = reflect (number a + v * number h) := by
  cases v with
  | number t => simp [turned, reflect, add_comm]
  | infinity s =>
    -- the quotient and the way both change their sign
    change number (-a) + scaled (!s) (-h) = reflect (number a + scaled s h)
    rw [scaled, scaled, if_neg hh, if_neg (neg_ne_zero.mpr hh)]
    have hsign : decide (-h < 0) = !decide (h < 0) := by
      rcases lt_or_gt_of_ne hh with hneg | hpos
      · simp [hneg, hneg.le]
      · simp [hpos, hpos.le]
    rw [hsign]
    cases s <;> cases decide (h < 0) <;> rfl
  | undefined => rfl

theorem abs_reflect_sub (c : Exact K) (a : K) :
    Scalar.abs (reflect c - number (-a)) = Scalar.abs (c - number a) := by
  cases c with
  | number t =>
    rw [reflect, number_sub, number_sub, abs_number, abs_number, neg_sub_neg, abs_sub_comm]
  | infinity s => rfl
  | undefined => rfl

theorem reflect_mean (c q : Exact K) :
    reflect c + (reflect q - reflect c) / 2.0 = reflect (c + (q - c) / 2.0) := by
  rcases c with a | s | _ <;> rcases q with b | t | _
  case number.number =>
    rw [reflect, reflect, number_sub, number_sub, number_half, number_half, number_add, number_add,
      reflect, ← neg_sub', neg_div, neg_add]
  case number.infinity =>
    change number (-a) + infinity t / 2.0 = reflect (number a + infinity t / 2.0)
    rw [infinity_half]
    rfl
  case infinity.number =>
    change infinity s + infinity (!s) / 2.0 = reflect (infinity s + infinity (!s) / 2.0)
    rw [infinity_half]
    cases s <;> rfl
  case infinity.infinity =>
    cases s <;> cases t <;> try rfl
    · change infinity false + infinity true / 2.0 = reflect (infinity false + infinity true / 2.0)
      rw [infinity_half]
      rfl
    · change infinity true + infinity false / 2.0 = reflect (infinity true + infinity false / 2.0)
      rw [infinity_half]
      rfl
  all_goals rfl

end Moves

section Candidates

theorem middle_mirrored (a b : End K) : middle a.mirrored b.mirrored = -middle a b := by
  simp only [middle, End.mirrored_step, End.mirrored_value, End.mirrored_slope]
  rw [neg_sub_neg, ← neg_sub b.step a.step, div_neg, neg_add, neg_add]

theorem cubicGamma_neg (theta a b : K) :
    cubicGamma (number (-theta)) (number (-a)) (number (-b)) =
      cubicGamma (number theta) (number a) (number b) := by
  simp only [cubicGamma_number, abs_neg, neg_div, neg_mul_neg]

/-- In the mirror a choice by the orientation is the other one. -/
theorem ite_mirrored {α : Type} {a b : K} (h : a ≠ b) [Decidable (-a < -b)] [Decidable (a < b)]
    (u v : α) : (if -a < -b then u else v) = if a < b then v else u := by
  rcases lt_or_gt_of_ne h with hlt | hgt
  · rw [if_pos hlt, if_neg (neg_lt_neg hlt).not_gt]
  · rw [if_neg hgt.not_gt, if_pos (neg_lt_neg hgt)]

theorem oriented_neg {a b : K} (h : a ≠ b) (gamma : K) :
    (if -a < -b then -gamma else gamma) = -(if a < b then -gamma else gamma) := by
  rw [ite_mirrored h, apply_ite Neg.neg, neg_neg]

variable {a b : End K}

theorem cubicToward_mirrored {e : End K} (h : e.step ≠ p.step) (theta : K) :
    cubicToward (number (-theta)) e.mirrored.exact p.mirrored.exact =
      reflect (cubicToward (number theta) e.exact p.exact) := by
  obtain ⟨gamma, -, hgamma⟩ := exists_cubicGamma theta e.slope p.slope
  simp only [cubicToward, End.exact_step, End.exact_slope, End.mirrored_step, End.mirrored_slope,
    cubicGamma_neg, hgamma, oriented_number, number_lt, decide_eq_true_eq, oriented_neg h]
  generalize (if e.step < p.step then -gamma else gamma) = g
  have hnum : -g - -p.slope + -theta = -(g - p.slope + theta) := by ring
  have hden : -g - -p.slope + -g + -e.slope = -(g - p.slope + g + e.slope) := by ring
  simp only [number_sub, number_add]
  rw [hnum, hden, ← neg_sub', number_div_neg, move_mirrored (sub_ne_zero.mpr h)]

theorem cubicFrom_mirrored (h : b.step ≠ a.step) :
    cubicFrom a.mirrored.exact b.mirrored.exact = reflect (cubicFrom a.exact b.exact) := by
  rw [← cubicToward_middle h, ← cubicToward_middle (a := a.mirrored) (b := b.mirrored) (by simpa),
    middle_mirrored, cubicToward_mirrored h]

theorem quadraticFrom_mirrored (h : b.step ≠ a.step) :
    quadraticFrom a.mirrored.exact b.mirrored.exact = reflect (quadraticFrom a.exact b.exact) := by
  have hway : b.step - a.step ≠ 0 := sub_ne_zero.mpr h
  simp only [quadraticFrom, End.exact_step, End.exact_slope, End.exact_value, End.mirrored_step,
    End.mirrored_slope, End.mirrored_value, number_sub, ← neg_sub', number_div hway,
    number_div (neg_ne_zero.mpr hway), number_add, div_neg, ← neg_add, number_div_neg, turned_half]
  exact move_mirrored hway

theorem secant_mirrored (h : b.step ≠ a.step) :
    secant a.mirrored.exact b.mirrored.exact = reflect (secant a.exact b.exact) := by
  simp only [secant, End.exact_step, End.exact_slope, End.mirrored_step, End.mirrored_slope,
    number_sub]
  rw [← neg_sub', ← neg_sub', number_div_neg, move_mirrored (sub_ne_zero.mpr h.symm)]

end Candidates

section Flattening

/-- A divisor for a rise: `A` and `B` are the slopes at both ends, `T` the middle coefficient and
`G` the root, all times the way from one end to the other. -/
theorem divisor_of_rise_ne {A B T G : K} (hA : 0 < A) (hB : 0 ≤ B) (hT : A + B ≤ T)
    (hG : T * T - A * B ≤ G * G) : G + (A - B) + G ≠ 0 := by
  intro hzero
  have hsquare : 4 * (G * G) = (A - B) * (A - B) := by
    linear_combination (2 * G - (A - B)) * hzero
  have hsum : 0 < A + B := by linarith
  have := mul_self_le_mul_self hsum.le hT
  linarith [mul_pos hsum hsum]

/-- With true roots the cubic step after a slope that has flattened divides by no zero, whether the
function falls on the way from `x` or rises. -/
theorem beyondDivisor_ne_of_flat [TrueRoot K] (hstep : p.step ≠ x.step)
    (hle : p.value ≤ x.value) (hsame : 0 ≤ p.slope * x.slope) (hflat : |p.slope| < |x.slope|)
    {gamma : K}
    (hgamma : cubicGamma (number (middle x p)) (number x.slope) (number p.slope) = number gamma) :
    beyondDivisor x p gamma ≠ 0 := by
  have hway : p.step - x.step ≠ 0 := sub_ne_zero.mpr hstep
  obtain ⟨hnonneg, hsquare⟩ := le_mul_self_of_cubicGamma hgamma
  have hslope : x.slope ≠ 0 := abs_pos.mp ((abs_nonneg _).trans_lt hflat)
  have hscaled : |p.slope * (p.step - x.step)| < |x.slope * (p.step - x.step)| := by
    rw [abs_mul, abs_mul]
    exact mul_lt_mul_of_pos_right hflat (abs_pos.mpr hway)
  have hsign : 0 ≤ x.slope * (p.step - x.step) * (p.slope * (p.step - x.step)) := by
    have := mul_nonneg hsame (mul_self_nonneg (p.step - x.step))
    linarith
  -- the slope at `x` is not zero, so the function either falls on the way or rises
  rcases lt_or_gt_of_ne (mul_ne_zero hslope hway) with hfalls | hrises
  · have := neg_abs_le (p.slope * (p.step - x.step))
    rw [abs_of_neg hfalls] at hscaled
    exact beyondDivisor_ne (by linarith) hnonneg
  · have hB : 0 ≤ p.slope * (p.step - x.step) := nonneg_of_mul_nonneg_right hsign hrises
    have hT := middle_mul hstep
    have horiented : (if x.step < p.step then -gamma else gamma) *
        (if x.step < p.step then -gamma else gamma) = gamma * gamma := by
      split_ifs <;> ring
    unfold beyondDivisor
    generalize (if x.step < p.step then -gamma else gamma) = g at horiented ⊢
    refine left_ne_zero_of_mul (b := p.step - x.step) ?_
    have hG := mul_le_mul_of_nonneg_right hsquare (mul_self_nonneg (p.step - x.step))
    have := divisor_of_rise_ne (T := middle x p * (p.step - x.step)) (G := g * (p.step - x.step))
      hrises hB (by linarith) (by linear_combination hG - (p.step - x.step) ^ 2 * horiented)
    convert this using 1
    ring

/-- With a divisor that is not zero the cubic step is a number, on the other side in the mirror. -/
theorem cubicBeyond_mirrored (low high : K) (hstep : p.step ≠ x.step) {gamma : K}
    (hgamma : cubicGamma (number (middle x p)) (number x.slope) (number p.slope) = number gamma)
    (hden : beyondDivisor x p gamma ≠ 0) :
    ∃ c, cubicBeyond x.exact p.exact (number low) (number high) = number c ∧
      cubicBeyond x.mirrored.exact p.mirrored.exact (number (-high)) (number (-low)) =
        number (-c) := by
  unfold beyondDivisor at hden
  simp only [cubicBeyond, theta_exact hstep,
    theta_exact (a := x.mirrored) (b := p.mirrored) (by simpa), middle_mirrored, End.exact_step,
    End.exact_slope, End.mirrored_step, End.mirrored_slope, cubicGamma_neg, hgamma, oriented_number,
    number_lt, decide_eq_true_eq, oriented_neg hstep.symm]
  generalize (if x.step < p.step then -gamma else gamma) = g at hden ⊢
  have hback : -g + (-x.slope - -p.slope) + -g = -(g + (x.slope - p.slope) + g) := by ring
  have hnum : -g - -p.slope + -middle x p = -(g - p.slope + middle x p) := by ring
  simp only [number_sub, number_add, number_div hden, hback, hnum,
    number_div (neg_ne_zero.mpr hden), neg_div_neg_eq, zero_eq, number_lt, number_beq,
    neg_eq_zero]
  rw [ite_mirrored hstep.symm]
  split_ifs
  · exact ⟨_, rfl, congrArg number (by ring)⟩
  · exact ⟨high, rfl, rfl⟩
  · exact ⟨low, rfl, rfl⟩

/-- The nearer to the trial of a limit and a step. -/
theorem nearer_mirrored {a b : K} (h : a ≠ b) (limit f : K) :
    (if -a < -b then Scalar.smaller (number (-limit)) (number (-f))
      else Scalar.larger (number (-limit)) (number (-f))) =
    reflect (if a < b then Scalar.smaller (number limit) (number f)
      else Scalar.larger (number limit) (number f)) := by
  rw [ite_mirrored h]
  simp only [smaller_number, larger_number, max_neg_neg, min_neg_neg]
  split_ifs <;> rfl

theorem clamp_mirrored (h : low ≤ high) (f : K) :
    Scalar.clamp (number (-high)) (number (-low)) (number (-f)) =
      reflect (Scalar.clamp (number low) (number high) (number f)) := by
  rw [clamp_number, clamp_number, reflect, max_neg_neg, min_neg_neg, max_min_distrib_right,
    max_eq_left h]

theorem stepFlattening_mirrored (hstep : p.step ≠ x.step) (hbounds : low ≤ high)
    (hslope : p.slope - x.slope ≠ 0) {c : K}
    (hc : cubicBeyond x.exact p.exact (number low) (number high) = number c)
    (hc' : cubicBeyond x.mirrored.exact p.mirrored.exact (number (-high)) (number (-low)) =
      number (-c)) :
    stepFlattening x.mirrored.exact y.mirrored.exact p.mirrored.exact bracketed (number (-high))
        (number (-low)) =
      reflect (stepFlattening x.exact y.exact p.exact bracketed (number low) (number high)) := by
  have hs : secant x.exact p.exact =
      number (p.step + p.slope / (p.slope - x.slope) * (x.step - p.step)) := by
    simp [secant, number_div hslope]
  have hs' := secant_mirrored hstep
  rw [hs, reflect] at hs'
  generalize p.step + p.slope / (p.slope - x.slope) * (x.step - p.step) = z at hs hs'
  have hdistance (t : K) : Scalar.abs (number (-t) - number (-p.step)) =
      Scalar.abs (number t - number p.step) := abs_reflect_sub (number t) p.step
  have hlimit (s t : K) : number s + bisectRatio * (number t - number s) =
      number (s + 0.66 * (t - s)) := by simp [bisectRatio]
  have hback : -p.step + 0.66 * (-y.step - -p.step) = -(p.step + 0.66 * (y.step - p.step)) := by
    generalize (0.66 : K) = share
    ring
  simp only [stepFlattening, hc, hc', hs, hs', End.exact_step, End.mirrored_step, hdistance,
    hlimit, hback, number_lt]
  cases bracketed with
  | true =>
    simp only [if_true]
    by_cases hcloser : Scalar.abs (number c - number p.step) < Scalar.abs (number z - number p.step)
    · simp only [if_pos hcloser]
      exact nearer_mirrored hstep.symm _ c
    · simp only [if_neg hcloser]
      exact nearer_mirrored hstep.symm _ z
  | false =>
    simp only [Bool.false_eq_true, if_false]
    split_ifs
    · exact clamp_mirrored hbounds c
    · exact clamp_mirrored hbounds z
end Flattening

section Steps

theorem stepAfterRise_mirrored (hstep : p.step ≠ x.step) :
    stepAfterRise x.mirrored.exact p.mirrored.exact = reflect (stepAfterRise x.exact p.exact) := by
  simp only [stepAfterRise, cubicFrom_mirrored hstep, quadraticFrom_mirrored hstep, End.exact_step,
    End.mirrored_step, abs_reflect_sub, reflect_mean]
  exact (apply_ite reflect _ _ _).symm

theorem stepAcross_mirrored (hstep : p.step ≠ x.step) :
    stepAcross x.mirrored.exact p.mirrored.exact = reflect (stepAcross x.exact p.exact) := by
  simp only [stepAcross, theta_exact hstep,
    theta_exact (a := x.mirrored) (b := p.mirrored) (by simpa), middle_mirrored,
    cubicToward_mirrored hstep.symm, secant_mirrored hstep, End.exact_step, End.mirrored_step,
    abs_reflect_sub]
  exact (apply_ite reflect _ _ _).symm

theorem stepOnward_mirrored (hstep : p.step ≠ x.step) (hother : y.step ≠ p.step) :
    stepOnward x.mirrored.exact y.mirrored.exact p.mirrored.exact bracketed (number (-high))
        (number (-low)) =
      reflect (stepOnward x.exact y.exact p.exact bracketed (number low) (number high)) := by
  cases bracketed with
  | true =>
    rw [stepOnward, stepOnward, if_pos rfl, if_pos rfl, theta_onward hother,
      theta_onward (p := p.mirrored) (y := y.mirrored) (by simpa), middle_mirrored,
      cubicToward_mirrored hother]
  | false =>
    simp only [stepOnward, Bool.false_eq_true, if_false, End.exact_step, End.mirrored_step,
      number_lt]
    rw [ite_mirrored hstep.symm]
    split_ifs <;> rfl

theorem trialStep_mirrored [TrueRoot K] (hstep : p.step ≠ x.step) (hother : y.step ≠ p.step)
    (hbounds : low ≤ high) :
    trialStep x.mirrored.exact y.mirrored.exact p.mirrored.exact bracketed (number (-high))
        (number (-low)) =
      reflect (trialStep x.exact y.exact p.exact bracketed (number low) (number high)) := by
  simp only [trialStep, opposite_number, End.exact_value, End.exact_slope, End.mirrored_value,
    End.mirrored_slope, neg_mul_neg, abs_number, abs_neg, number_lt, decide_eq_true_eq]
  split_ifs with hrise hopp hflat
  · exact stepAfterRise_mirrored hstep
  · exact stepAcross_mirrored hstep
  · obtain ⟨gamma, -, hgamma⟩ := exists_cubicGamma (middle x p) x.slope p.slope
    have hden := beyondDivisor_ne_of_flat hstep (not_lt.mp hrise) (not_lt.mp hopp) hflat hgamma
    obtain ⟨c, hc, hc'⟩ := cubicBeyond_mirrored low high hstep hgamma hden
    have hslope : p.slope - x.slope ≠ 0 := fun h => by
      rw [sub_eq_zero.mp h] at hflat
      exact hflat.false
    exact stepFlattening_mirrored hstep hbounds hslope hc hc'
  · exact stepOnward_mirrored hstep hother

end Steps

/-- The safeguarded step is the same in a mirror. With all positions and slopes negated and the
bounds negated and swapped, the ends that come out have their positions and slopes negated and their values
unchanged, the interval is bracketed or not as before, and the new step is the negated one where it
is a number and the same one where it is infinite or undefined. -/
theorem safeguardedStep_mirrored [TrueRoot K] (hstep : p.step ≠ x.step)
    (hother : y.step ≠ p.step) (hbounds : low ≤ high) :
    safeguardedStep x.mirrored.exact y.mirrored.exact p.mirrored.exact bracketed (number (-high))
        (number (-low)) =
      (safeguardedStep x.exact y.exact p.exact bracketed (number low) (number high)).mirrored := by
  simp only [safeguardedStep, trialStep_mirrored hstep hother hbounds, opposite_number,
    End.exact_value, End.exact_slope, End.mirrored_value, End.mirrored_slope, neg_mul_neg]
  split_ifs <;> rfl

/-- The mirror of a search to the left is one to the right. -/
theorem safeguardedStep_mirrored_leftward :
    let x : End ℝ := ⟨0, 0, 1⟩
    let p : End ℝ := ⟨-1, -1 / 4, -1⟩
    let right : End ℝ := ⟨0, 0, -1⟩
    let trial : End ℝ := ⟨1, -1 / 4, 1⟩
    safeguardedStep right.exact right.exact trial.exact false (number 0) (number 5) =
      (safeguardedStep x.exact x.exact p.exact false (number (-5)) (number 0)).mirrored := by
  intro x p right trial
  have h : safeguardedStep x.mirrored.exact x.mirrored.exact p.mirrored.exact false (number (-0))
      (number (-(-5))) =
      (safeguardedStep x.exact x.exact p.exact false (number (-5)) (number 0)).mirrored :=
    safeguardedStep_mirrored (by norm_num [x, p]) (by norm_num [x, p]) (by norm_num)
  have hx : x.mirrored = right := by simp [End.mirrored, x, right]
  have hp : p.mirrored = trial := by norm_num [End.mirrored, p, trial]
  rwa [hx, hp, neg_zero, neg_neg] at h

section Infinite

theorem safeguardedStep_next {α : Type} [Scalar α] (x y p : End α) (bracketed : Bool)
    (low high : α) : (safeguardedStep x y p bracketed low high).next =
      trialStep x y p bracketed low high := by
  unfold safeguardedStep
  split_ifs <;> rfl

/-- Where the cubic through the trial and the other end falls for good, the step onward divides by
zero. -/
theorem trialStep_infinite :
    trialStep (End.exact (K := ℝ) ⟨0, 0, -1⟩) (End.exact ⟨2, -3, -2⟩) (End.exact ⟨1, -1, -2⟩) true
      (number 0) (number 2) = infinity false := by
  have hsame : opposite (End.exact (K := ℝ) ⟨1, -1, -2⟩).slope (End.exact ⟨0, 0, -1⟩).slope =
      false := by simp [opposite_number]
  have hmiddle : middle (⟨1, -1, -2⟩ : End ℝ) ⟨2, -3, -2⟩ = 2 := by norm_num [middle]
  have hgamma : cubicGamma (number (2 : ℝ)) (number (-2)) (number (-2)) = number 0 :=
    cubicGamma_of_mul_self le_rfl (by norm_num)
  have hsign : decide ((4 : ℝ) < 0) = false := by norm_num
  rw [trialStep_onward (by norm_num) hsame, if_neg (by norm_num), stepOnward, if_pos rfl,
    theta_onward (by norm_num), hmiddle]
  calc cubicToward (number (2 : ℝ)) (End.exact ⟨2, -3, -2⟩) (End.exact ⟨1, -1, -2⟩)
      = number 1 + number 4 / number (0 : ℝ) * number 1 := by
        simp only [cubicToward, End.exact_slope, End.exact_step, hgamma, oriented_number]
        norm_num
    _ = number 1 + infinity false * number 1 := by
        rw [number_div_zero, if_neg four_ne_zero, hsign]
    _ = infinity false := congrArg (number (1 : ℝ) + ·) (number_mul_infinity one_pos false)

/-- In a mirror that negates infinities too the step is not the same: there it would be negative. -/
theorem not_forall_safeguardedStep_negated :
    ¬ ∀ (x y p : End ℝ) (bracketed : Bool) (low high : ℝ), p.step ≠ x.step → y.step ≠ p.step →
      low ≤ high →
      (safeguardedStep x.mirrored.exact y.mirrored.exact p.mirrored.exact bracketed (number (-high))
        (number (-low))).next =
      -(safeguardedStep x.exact y.exact p.exact bracketed (number low) (number high)).next := by
  intro h
  have hnegated := h ⟨0, 0, -1⟩ ⟨2, -3, -2⟩ ⟨1, -1, -2⟩ true 0 2 (by norm_num) (by norm_num)
    (by norm_num)
  rw [safeguardedStep_next, safeguardedStep_next, trialStep_mirrored (by norm_num) (by norm_num)
    (by norm_num), trialStep_infinite] at hnegated
  cases hnegated

end Infinite

end Downhill.MoreThuente
