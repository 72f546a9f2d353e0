import Mathlib.Tactic.SplitIfs
import Downhill.LineSearch.MoreThuente.Interval

/-! What the safeguarded step divides by. Each formula has its divisors, and a trial those of the
formulas that it weighs. Another division that gives the same by them gives the same step, so
nothing else is divided by. -/
namespace Downhill.MoreThuente
variable {α : Type} [Scalar α]

/-- What the scaling of the discriminant divides by. -/
def gammaDivisors (theta d1 d2 : α) : List α :=
  let scale := Scalar.larger (Scalar.larger (Scalar.abs theta) (Scalar.abs d1)) (Scalar.abs d2)
  if scale == 0 then [] else [scale]

def cubicFromDivisors (x p : End α) : List α :=
  let theta := theta x p
  let gamma := oriented (p.step < x.step) (cubicGamma theta x.slope p.slope)
  (p.step - x.step) :: gammaDivisors theta x.slope p.slope ++
    [gamma - x.slope + gamma + p.slope]

def cubicTowardDivisors (theta : α) (e p : End α) : List α :=
  let gamma := oriented (e.step < p.step) (cubicGamma theta e.slope p.slope)
  gammaDivisors theta e.slope p.slope ++ [gamma - p.slope + gamma + e.slope]

def cubicBeyondDivisors (x p : End α) : List α :=
  let theta := theta x p
  let gamma := oriented (x.step < p.step) (cubicGamma theta x.slope p.slope)
  (p.step - x.step) :: gammaDivisors theta x.slope p.slope ++
    [gamma + (x.slope - p.slope) + gamma]

def quadraticFromDivisors (x p : End α) : List α :=
  [p.step - x.step, (x.value - p.value) / (p.step - x.step) + x.slope, 2.0]

/-- All that the step after a trial divides by: in each case the divisors of the formulas that it
weighs. -/
def divisors (x y p : End α) (bracketed : Bool) : List α :=
  if x.value < p.value then cubicFromDivisors x p ++ quadraticFromDivisors x p ++ [2.0]
  else if opposite p.slope x.slope then
    (p.step - x.step) :: cubicTowardDivisors (theta x p) x p ++ [p.slope - x.slope]
  else if Scalar.abs p.slope < Scalar.abs x.slope then
    cubicBeyondDivisors x p ++ [p.slope - x.slope]
  else if bracketed then
    (y.step - p.step) :: cubicTowardDivisors
      (3.0 * (p.value - y.value) / (y.step - p.step) + y.slope + p.slope) y p
  else []

/-- The same scalars with another division. -/
@[reducible] def dividing {α : Type} [i : Scalar α] (d : α → α → α) : Scalar α :=
  { i with div := d }

/-- Another division that gives the same by all of these. -/
def AgreesOn (d : α → α → α) (l : List α) : Prop := ∀ v ∈ l, ∀ u, d u v = u / v

variable {d : α → α → α} {x y p e : End α}

theorem agreesOn_cons {v : α} {l : List α} :
    AgreesOn d (v :: l) ↔ (∀ u, d u v = u / v) ∧ AgreesOn d l := List.forall_mem_cons

theorem agreesOn_append {l l' : List α} :
    AgreesOn d (l ++ l') ↔ AgreesOn d l ∧ AgreesOn d l' := List.forall_mem_append

theorem cubicGamma_dividing {t d1 d2 : α} (h : AgreesOn d (gammaDivisors t d1 d2)) :
    @cubicGamma α (dividing d) t d1 d2 = cubicGamma t d1 d2 := by
  let scale := Scalar.larger (Scalar.larger (Scalar.abs t) (Scalar.abs d1)) (Scalar.abs d2)
  change (if scale == 0 then 0 else
    scale * Scalar.sqrt (Scalar.larger 0 (d t scale * d t scale - d d1 scale * d d2 scale))) =
      if scale == 0 then 0 else
    scale * Scalar.sqrt (Scalar.larger 0 (t / scale * (t / scale) - d1 / scale * (d2 / scale)))
  change AgreesOn d (if scale == 0 then [] else [scale]) at h
  split_ifs at h ⊢
  · rfl
  · rw [(agreesOn_cons.mp h).1, (agreesOn_cons.mp h).1, (agreesOn_cons.mp h).1]

theorem theta_dividing (h : ∀ u, d u (p.step - x.step) = u / (p.step - x.step)) :
    @theta α (dividing d) x p = theta x p :=
  congrArg (· + x.slope + p.slope) (h (3.0 * (x.value - p.value)))

theorem cubicFrom_dividing (h : AgreesOn d (cubicFromDivisors x p)) :
    @cubicFrom α (dividing d) x p = cubicFrom x p := by
  simp only [cubicFromDivisors, agreesOn_append, agreesOn_cons] at h
  obtain ⟨⟨hway, hgamma⟩, hden, -⟩ := h
  unfold cubicFrom
  dsimp only
  rw [theta_dividing hway, cubicGamma_dividing hgamma]
  exact congrArg (fun q => x.step + q * (p.step - x.step)) (hden _)

theorem cubicToward_dividing {t : α} (h : AgreesOn d (cubicTowardDivisors t e p)) :
    @cubicToward α (dividing d) t e p = cubicToward t e p := by
  simp only [cubicTowardDivisors, agreesOn_append, agreesOn_cons] at h
  obtain ⟨hgamma, hden, -⟩ := h
  unfold cubicToward
  dsimp only
  rw [cubicGamma_dividing hgamma]
  exact congrArg (fun q => p.step + q * (e.step - p.step)) (hden _)

theorem quadraticFrom_dividing (h : AgreesOn d (quadraticFromDivisors x p)) :
    @quadraticFrom α (dividing d) x p = quadraticFrom x p := by
  simp only [quadraticFromDivisors, agreesOn_cons] at h
  obtain ⟨hway, hslope, htwo, -⟩ := h
  change x.step + d (d x.slope (d (x.value - p.value) (p.step - x.step) + x.slope)) 2.0 *
    (p.step - x.step) = _
  rw [hway, hslope, htwo]
  rfl

theorem cubicBeyond_dividing (h : AgreesOn d (cubicBeyondDivisors x p)) (low high : α) :
    @cubicBeyond α (dividing d) x p low high = cubicBeyond x p low high := by
  simp only [cubicBeyondDivisors, agreesOn_append, agreesOn_cons] at h
  obtain ⟨⟨hway, hgamma⟩, hden, -⟩ := h
  unfold cubicBeyond
  dsimp only
  rw [theta_dividing hway, cubicGamma_dividing hgamma]
  exact congrArg (fun r => if r < 0 && !(oriented (x.step < p.step)
    (cubicGamma (theta x p) x.slope p.slope) == 0) then p.step + r * (x.step - p.step)
    else if x.step < p.step then high else low) (hden _)

theorem secant_dividing (h : ∀ u, d u (p.slope - x.slope) = u / (p.slope - x.slope)) :
    @secant α (dividing d) x p = secant x p :=
  congrArg (fun q => p.step + q * (x.step - p.step)) (h p.slope)

theorem stepAfterRise_dividing (h : AgreesOn d
    (cubicFromDivisors x p ++ quadraticFromDivisors x p ++ [2.0])) :
    @stepAfterRise α (dividing d) x p = stepAfterRise x p := by
  simp only [agreesOn_append, agreesOn_cons] at h
  obtain ⟨⟨hcubic, hquadratic⟩, htwo, -⟩ := h
  unfold stepAfterRise
  rw [cubicFrom_dividing hcubic, quadraticFrom_dividing hquadratic]
  exact congrArg (fun m => if Scalar.abs (cubicFrom x p - x.step) ≤
    Scalar.abs (quadraticFrom x p - x.step) then cubicFrom x p else cubicFrom x p + m) (htwo _)

theorem stepAcross_dividing (h : AgreesOn d ((p.step - x.step) ::
    cubicTowardDivisors (theta x p) x p ++ [p.slope - x.slope])) :
    @stepAcross α (dividing d) x p = stepAcross x p := by
  simp only [agreesOn_append, agreesOn_cons] at h
  obtain ⟨⟨hway, hcubic⟩, hsecant, -⟩ := h
  unfold stepAcross
  rw [theta_dividing hway, cubicToward_dividing hcubic, secant_dividing hsecant]
  rfl

theorem stepFlattening_dividing (h : AgreesOn d (cubicBeyondDivisors x p ++ [p.slope - x.slope]))
    (y : End α) (bracketed : Bool) (low high : α) :
    @stepFlattening α (dividing d) x y p bracketed low high =
      stepFlattening x y p bracketed low high := by
  simp only [agreesOn_append, agreesOn_cons] at h
  obtain ⟨hcubic, hsecant, -⟩ := h
  unfold stepFlattening
  rw [cubicBeyond_dividing hcubic, secant_dividing hsecant]
  rfl

theorem stepOnward_dividing {bracketed : Bool} (h : AgreesOn d (if bracketed then
    (y.step - p.step) :: cubicTowardDivisors
      (3.0 * (p.value - y.value) / (y.step - p.step) + y.slope + p.slope) y p else []))
    (low high : α) :
    @stepOnward α (dividing d) x y p bracketed low high = stepOnward x y p bracketed low high := by
  cases bracketed with
  | false => rfl
  | true =>
    obtain ⟨hway, hcubic⟩ := agreesOn_cons.mp h
    rw [← hway] at hcubic
    refine (cubicToward_dividing hcubic).trans ?_
    rw [hway]
    rfl

/-- The step after a trial depends on division by its divisors alone. -/
theorem trialStep_dividing {bracketed : Bool} (h : AgreesOn d (divisors x y p bracketed))
    (low high : α) :
    @trialStep α (dividing d) x y p bracketed low high = trialStep x y p bracketed low high := by
  unfold divisors at h
  unfold trialStep
  by_cases hrise : x.value < p.value
  · rw [if_pos hrise] at h
    exact (if_pos hrise).trans ((stepAfterRise_dividing h).trans (if_pos hrise).symm)
  · rw [if_neg hrise] at h
    refine (if_neg hrise).trans (.trans ?_ (if_neg hrise).symm)
    by_cases hopp : opposite p.slope x.slope = true
    · rw [if_pos hopp] at h
      exact (if_pos hopp).trans ((stepAcross_dividing h).trans (if_pos hopp).symm)
    · rw [if_neg hopp] at h
      refine (if_neg hopp).trans (.trans ?_ (if_neg hopp).symm)
      by_cases hflat : Scalar.abs p.slope < Scalar.abs x.slope
      · rw [if_pos hflat] at h
        exact (if_pos hflat).trans ((stepFlattening_dividing h _ _ _ _).trans (if_pos hflat).symm)
      · rw [if_neg hflat] at h
        exact (if_neg hflat).trans ((stepOnward_dividing h _ _).trans (if_neg hflat).symm)

end Downhill.MoreThuente
