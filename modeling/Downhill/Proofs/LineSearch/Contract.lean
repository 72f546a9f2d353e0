import Downhill.LineSearch.Family
import Downhill.Proofs.Ensures
import Downhill.Proofs.Problem.Quiet

/-! The contract of line searches. A step that is taken leads forward along the ray, to a point that
is handed back with its own value and gradient, and the value has decreased sufficiently; without
success the start is handed back; and the evaluations that are reported are those that were asked
for. -/
namespace Downhill
variable {α V M : Type}

namespace Ledger

/-- How many values and how many gradients were asked for. -/
def asked (l : Ledger α V) : ℕ × ℕ := (l.valuePoints.length, l.gradientPoints.length)

theorem asked_of_value {l l' : Ledger α V} {x : V} (h : l'.requests = l.requests.push (.value x)) :
    l'.asked = (l.asked.1 + 1, l.asked.2) := by
  simp [asked, valuePoints, gradientPoints, h]

theorem asked_of_gradient {l l' : Ledger α V} {x : V}
    (h : l'.requests = l.requests.push (.gradient x)) :
    l'.asked = (l.asked.1, l.asked.2 + 1) := by
  simp [asked, valuePoints, gradientPoints, h]

end Ledger

variable [Scalar α] [Space α V]

/-- A step of length `alpha` that may be taken along a ray: it leads to `y`, with the value and the
gradient that the oracle has there, and decreases the value sufficiently. -/
structure Ray.Admits (r : Ray α V) (o : Oracle α V M) (c1 alpha : α) (y : Iterate α V) : Prop where
  alpha_pos : 0 < alpha
  point_eq : y.point = r.start.point + alpha * r.direction
  value_eq : o.valueAt y.point = .ok y.value
  gradient_eq : o.gradientAt y.point = .ok y.gradient
  value_lt : y.value < r.start.value
  value_le : y.value ≤ r.start.value + c1 * alpha * Space.inner r.start.gradient r.direction

/-- What a search promises of its answer. The account held `before` requests for values and for
gradients when the search began, and is `l` when it ends; `c2` is the constant of the curvature
conditions, if the search has one. -/
structure Step.Meets (step : Step α V) (o : Oracle α V M) (r : Ray α V) (c1 : α) (c2 : Option α)
    (before : ℕ × ℕ) (l : Ledger α V) : Prop where
  taken : step.success = true → r.Admits o c1 step.alpha step.reached
  refused : step.success = false → step.alpha = 0 ∧ step.reached = r.start
  counted : l.asked = (before.1 + step.values, before.2 + step.gradients)
  strongWolfe : step.message = .strongWolfe → ∃ c, c2 = some c ∧
    Scalar.abs (Space.inner step.reached.gradient r.direction) ≤
      c * Scalar.abs (Space.inner r.start.gradient r.direction)
  wolfe : step.message = .wolfe → ∃ c, c2 = some c ∧
    c * Space.inner r.start.gradient r.direction ≤
      Space.inner step.reached.gradient r.direction

namespace LineSearch

/-- The constant of the sufficient-decrease test, which the bare contract does not have. -/
def armijo? : LineSearch α → Option α
  | base => none
  | backtracking s => some s.c1
  | cubic s => some s.c1
  | bisection s => some s.c1
  | moreThuente s => some s.c1

/-- The constant of the curvature conditions, if there is one. -/
def curvature? : LineSearch α → Option α
  | bisection s => some s.c2
  | moreThuente s => some s.c2
  | _ => none

end LineSearch

section Parts
variable {o : Oracle α V M}

omit [Space α V] in
theorem checkScalar_eq_ok_iff {what : Quantity α} {v : α} {u : Unit} :
    checkScalar what v = .ok u ↔ Scalar.isFinite v = true := by
  unfold checkScalar
  split_ifs with h <;> simp [h]

omit [Scalar α] [Space α V] in
theorem checkArray_eq_ok_iff {what : Quantity α} {finite : Bool} {u : Unit} :
    checkArray what finite = .ok u ↔ finite = true := by
  unfold checkArray
  split_ifs with h <;> simp [h]

omit [Scalar α] [Space α V] in
theorem ensures_value (ho : o.Quiet) (x : V) (v g : ℕ) :
    Ensures (fun l => l.asked = (v, g)) (o.recorded.value x) fun a l =>
      a = o.valueAt x ∧ l.asked = (v + 1, g) := by
  intro l hl
  obtain ⟨ha, hr⟩ := ho.perform_value x l
  exact ⟨ha, (Ledger.asked_of_value hr).trans (by rw [hl])⟩

omit [Scalar α] [Space α V] in
theorem ensures_gradient (ho : o.Quiet) (x : V) (v g : ℕ) :
    Ensures (fun l => l.asked = (v, g)) (o.recorded.gradient x) fun a l =>
      a = o.gradientAt x ∧ l.asked = (v, g + 1) := by
  intro l hl
  obtain ⟨ha, hr⟩ := ho.perform_gradient x l
  exact ⟨ha, (Ledger.asked_of_gradient hr).trans (by rw [hl])⟩

omit [Space α V] in
/-- A value at a trial is that of the oracle, it is finite, and one request was made. -/
theorem ensures_trialValue (ho : o.Quiet) (x : V) (alpha : α) (v g : ℕ) :
    Ensures (fun l => l.asked = (v, g)) (trialValue o.recorded x alpha)
      (Answered fun f l => (o.valueAt x = .ok f ∧ Scalar.isFinite f = true) ∧
        l.asked = (v + 1, g)) := by
  refine .bind_of_eq (ensures_value ho x v g) (fun f hf => ?_) fun _ _ => trivial
  refine .bind_of_eq (Eval.ensures_ofExcept _) (fun u hu => ?_) fun _ _ => trivial
  exact .pure fun l hl => ⟨⟨hf, checkScalar_eq_ok_iff.mp hu⟩, hl⟩

omit [Scalar α] in
theorem ensures_trialGradient (ho : o.Quiet) (x : V) (alpha : α) (v g : ℕ) :
    Ensures (fun l => l.asked = (v, g)) (trialGradient o.recorded x alpha)
      (Answered fun y l => (o.gradientAt x = .ok y ∧ Space.finite y = true) ∧
        l.asked = (v, g + 1)) := by
  refine .bind_of_eq (ensures_gradient ho x v g) (fun y hy => ?_) fun _ _ => trivial
  refine .bind_of_eq (Eval.ensures_ofExcept _) (fun u hu => ?_) fun _ _ => trivial
  exact .pure fun l hl => ⟨⟨hy, checkArray_eq_ok_iff.mp hu⟩, hl⟩

theorem Ray.prepare_eq_ok {r : Ray α V} {default slope alpha : α} {asked : Option α}
    (h : r.prepare default asked = .ok (slope, alpha)) :
    slope = Space.inner r.start.gradient r.direction ∧ slope < 0 ∧ 0 < alpha ∧
      Scalar.isFinite alpha = true := by
  obtain ⟨m, hm, h⟩ := bind_eq_ok_iff.mp h
  obtain ⟨a, ha, h⟩ := bind_eq_ok_iff.mp h
  obtain ⟨-, -, h⟩ := bind_eq_ok_iff.mp h
  cases h
  obtain ⟨i, hi, hm⟩ := bind_eq_ok_iff.mp hm
  obtain ⟨-, -, hi⟩ := bind_eq_ok_iff.mp hi
  cases hi
  simp only [startingStep] at ha
  split_ifs at hm ha with hneg hpos
  cases hm
  cases ha
  exact ⟨rfl, hneg, hpos⟩

omit [Space α V] in
theorem sufficientDecrease_iff {f f0 alpha slope c1 : α} :
    sufficientDecrease f f0 alpha slope c1 = true ↔ f < f0 ∧ f ≤ f0 + c1 * alpha * slope := by
  simp [sufficientDecrease]

theorem Ray.admits_of_sufficientDecrease {r : Ray α V} {c1 alpha f : α} {g : V}
    (ha : 0 < alpha) (hf : o.valueAt (r.along alpha) = .ok f)
    (hg : o.gradientAt (r.along alpha) = .ok g)
    (hd : sufficientDecrease f r.start.value alpha
      (Space.inner r.start.gradient r.direction) c1 = true) :
    r.Admits o c1 alpha ⟨r.along alpha, f, g⟩ :=
  ⟨ha, rfl, hf, hg, (sufficientDecrease_iff.mp hd).1, (sufficientDecrease_iff.mp hd).2⟩

variable {r : Ray α V} {c1 : α} {c2 : Option α} {before : ℕ × ℕ} {l : Ledger α V}

/-- A step whose message claims no curvature condition. -/
theorem Step.meets_accepted {alpha : α} {y : Iterate α V} {v g : ℕ} {message : SearchMessage α}
    (h : r.Admits o c1 alpha y) (hl : l.asked = (before.1 + v, before.2 + g))
    (hs : message ≠ .strongWolfe) (hw : message ≠ .wolfe) :
    (Step.accepted alpha y v g message).Meets o r c1 c2 before l :=
  ⟨fun _ => h, fun h => (nomatch h), hl, fun h => absurd h hs, fun h => absurd h hw⟩

theorem Step.meets_failed {v g : ℕ} {message : SearchMessage α}
    (hl : l.asked = (before.1 + v, before.2 + g)) (hs : message ≠ .strongWolfe)
    (hw : message ≠ .wolfe) : (Step.failed r v g message).Meets o r c1 c2 before l :=
  ⟨fun h => (nomatch h), fun _ => ⟨rfl, rfl⟩, hl, fun h => absurd h hs, fun h => absurd h hw⟩

/-- A trial that is taken if the value has decreased sufficiently, and else goes on with `next`. -/
theorem ensures_armijoTrial {σ : Type} {I : σ → Ledger α V → Prop} (ho : o.Quiet) {alpha : α}
    (ha : 0 < alpha) (trials : ℕ) {next : α → Eval α V (σ ⊕ Step α V)}
    (hnext : ∀ f, Ensures (fun l => l.asked = (before.1 + (trials + 1), before.2)) (next f)
      (Rounded I (fun step l => step.Meets o r c1 c2 before l) fun _ _ => True)) :
    Ensures (fun l => l.asked = (before.1 + trials, before.2))
      (do
        let f ← trialValue o.recorded (r.along alpha) alpha
        if sufficientDecrease f r.start.value alpha
            (Space.inner r.start.gradient r.direction) c1 then
          let g ← trialGradient o.recorded (r.along alpha) alpha
          return .inr (.accepted alpha ⟨r.along alpha, f, g⟩ (trials + 1) 1 .armijo)
        else next f)
      (Rounded I (fun step l => step.Meets o r c1 c2 before l) fun _ _ => True) := by
  refine .bind (ensures_trialValue ho _ _ _ _) (fun f => ?_) fun _ _ _ => trivial
  refine .of_fact fun ⟨hf, _⟩ => .ite (fun hd => ?_) fun _ => hnext f
  refine .bind (ensures_trialGradient ho _ _ _ _) (fun g => ?_) fun _ _ _ => trivial
  refine .of_fact fun ⟨hg, _⟩ => .pure fun l hl => ?_
  exact Step.meets_accepted (Ray.admits_of_sufficientDecrease ha hf hg hd) hl nofun nofun

/-- What follows the preparations of a search may rely on a negative slope and on a first step that
is positive and finite. -/
theorem ensures_prepared {β : Type} {P : Ledger α V → Prop} {Q : β → Ledger α V → Prop}
    {default : α} {asked : Option α} {next : α × α → Eval α V β}
    (h : ∀ alpha, Space.inner r.start.gradient r.direction < 0 → 0 < alpha →
      Scalar.isFinite alpha = true →
      Ensures P (next (Space.inner r.start.gradient r.direction, alpha)) (Answered Q)) :
    Ensures P (Eval.ofExcept (r.prepare default asked) >>= next) (Answered Q) := by
  refine .bind_of_eq (Eval.ensures_ofExcept _) (fun ⟨slope, alpha⟩ hp => ?_) fun _ _ => trivial
  obtain ⟨rfl, hneg, hpos, hfin⟩ := Ray.prepare_eq_ok hp
  exact h alpha hneg hpos hfin

omit [Scalar α] [Space α V] in
/-- A capped loop whose rounds keep an invariant and end with steps that meet the contract. -/
theorem ensures_rounds {σ : Type} {I : σ → Ledger α V → Prop} {Q : Step α V → Ledger α V → Prop}
    {attempt : σ → Eval α V (σ ⊕ Step α V)} {next : σ ⊕ Step α V → Eval α V (Step α V)}
    (hround : ∀ t, Ensures (I t) (attempt t) (Rounded I Q fun _ _ => True)) (cap : ℕ) (t : σ)
    (hcap : ∀ t, Ensures (I t) (next (.inl t)) (Answered Q))
    (hstep : ∀ step, next (.inr step) = pure step) :
    Ensures (I t) (upTo attempt cap t >>= next) (Answered Q) := by
  refine .bind (.upTo hround cap t) (fun u => ?_) fun _ _ _ => trivial
  cases u with
  | inl t => exact hcap t
  | inr step => rw [hstep]; exact .pure fun l hl => hl

omit [Space α V] in
theorem checkArmijo_eq_ok_iff {c1 : α} {u : Unit} : checkArmijo c1 = .ok u ↔ 0 < c1 ∧ c1 < 1 := by
  unfold checkArmijo
  split_ifs with h <;> simp [h]

omit [Space α V] in
theorem checkWolfe_eq_ok_iff {c1 c2 : α} {u : Unit} :
    checkWolfe c1 c2 = .ok u ↔ (0 < c1 ∧ c1 < 1) ∧ c1 < c2 ∧ c2 < 1 := by
  unfold checkWolfe
  rw [bind_eq_ok_iff]
  simp only [checkArmijo_eq_ok_iff]
  split_ifs with h <;> simp [h, pure, Except.pure]

end Parts

end Downhill
