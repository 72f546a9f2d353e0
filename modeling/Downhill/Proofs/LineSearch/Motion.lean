import Downhill.Proofs.LineSearch.Backtracking
import Downhill.Proofs.LineSearch.Bisection
import Downhill.Proofs.LineSearch.Faults
import Downhill.Proofs.Problem.Affine

/-! Searches in affine coordinates. Along a ray and its image the same steps are tried, and every
trial is the image of the other, because the tests and the interpolation see only slopes and
differences of values. Here are the searches that shrink the step and the one that halves a
bracket. -/
open Matrix

namespace Downhill
variable {K : Type} [ExactField K] {n : ℕ}

open Exact

/-- The ray from an iterate along a direction of the field. -/
def rayAt (f : (Fin n → K) → K) (g : (Fin n → K) → Fin n → K) (x d : Fin n → K) :
    Ray (Exact K) (Vector (Exact K) n) :=
  ⟨iterateAt f g x, lift d⟩

section Rays
variable (f : (Fin n → K) → K) (g : (Fin n → K) → Fin n → K) (x d : Fin n → K)

omit [ExactField K] in
@[simp] theorem rayAt_value : (rayAt f g x d).start.value = number (f x) := rfl

omit [ExactField K] in
@[simp] theorem rayAt_direction : (rayAt f g x d).direction = lift d := rfl

theorem rayAt_along (a : K) : (rayAt f g x d).along (number a) = lift (x + a • d) := by
  rw [Ray.along, rayAt, iterateAt, number_mul_lift, lift_add]

end Rays

namespace AffineChange

section Images
variable (m : AffineChange K n) (f : (Fin n → K) → K) (g : (Fin n → K) → Fin n → K)

/-- A ray in the new coordinates. -/
def ray (r : Ray (Exact K) (Vector (Exact K) n)) : Ray (Exact K) (Vector (Exact K) n) :=
  ⟨m.iterate r.start, m.pushed r.direction⟩

def step (s : Step (Exact K) (Vector (Exact K) n)) : Step (Exact K) (Vector (Exact K) n) :=
  { s with reached := m.iterate s.reached }

/-- The second step is the image of the first, which reached an iterate of the field. -/
def Steps (s s' : Step (Exact K) (Vector (Exact K) n)) : Prop :=
  s' = m.step s ∧ ∃ z, s.reached = iterateAt f g z

variable (x d : Fin n → K)

theorem ray_rayAt :
    m.ray (rayAt f g x d) = rayAt (m.value f) (m.gradient g) (m.point x) (m.push d) := by
  rw [ray, rayAt, rayAt, pushed_lift, iterateAt_point]

@[simp] theorem ray_value : (m.ray (rayAt f g x d)).start.value = number (f x + m.offset) := rfl

@[simp] theorem ray_direction : (m.ray (rayAt f g x d)).direction = lift (m.push d) :=
  m.pushed_lift d

theorem ray_along (a : K) :
    (m.ray (rayAt f g x d)).along (number a) = lift (m.point (x + a • d)) := by
  rw [ray, rayAt, iterate_eq, Ray.along, pushed_lift, number_mul_lift, lift_add, point_add,
    push_smul]

theorem ray_prepare (default : Exact K) (asked : Option (Exact K)) :
    (m.ray (rayAt f g x d)).prepare default asked = (rayAt f g x d).prepare default asked := by
  simp only [Ray.prepare, Ray.slope, descentSlope, ray, rayAt, iterate_eq]
  simp only [iterateAt, pushed_lift, Space.dot?_vector, dot_lift, pull_dotProduct_push]
  rfl

theorem steps_failed (values gradients : ℕ) (message : SearchMessage (Exact K)) :
    m.Steps f g (.failed (rayAt f g x d) values gradients message)
      (.failed (m.ray (rayAt f g x d)) values gradients message) :=
  ⟨rfl, x, rfl⟩

theorem steps_accepted (z : Fin n → K) (alpha : Exact K) (values gradients : ℕ)
    (message : SearchMessage (Exact K)) :
    m.Steps f g (.accepted alpha (iterateAt f g z) values gradients message)
      (.accepted alpha (m.iterate (iterateAt f g z)) values gradients message) :=
  ⟨rfl, z, rfl⟩

end Images

section Trials
variable {m : AffineChange K n} {f : (Fin n → K) → K} {g : (Fin n → K) → Fin n → K}
  {o o' : Oracle (Exact K) (Vector (Exact K) n) (Matrix (Exact K) n)} {x d : Fin n → K}

/-- What follows the preparations of two searches may rely on the same slope and on the same first
step, which is a positive number. -/
theorem matches_prepared {β β' : Type} {B : β → β' → Prop} {default : Exact K}
    {asked : Option (Exact K)} {next : Exact K × Exact K → Eval (Exact K) (Vector (Exact K) n) β}
    {next' : Exact K × Exact K → Eval (Exact K) (Vector (Exact K) n) β'}
    (h : ∀ a, 0 < a → Eval.Matches B (next (number (g x ⬝ᵥ d), number a))
      (next' (number (g x ⬝ᵥ d), number a))) :
    Eval.Matches B (Eval.ofExcept ((rayAt f g x d).prepare default asked) >>= next)
      (Eval.ofExcept ((m.ray (rayAt f g x d)).prepare default asked) >>= next') := by
  refine .of_eq (m.ray_prepare f g x d default asked) fun ⟨slope, alpha⟩ hprepare => ?_
  obtain ⟨rfl, -, hpos, hfin⟩ := Ray.prepare_eq_ok hprepare
  obtain ⟨a, ha, rfl⟩ := exists_of_pos hpos hfin
  rw [show Space.inner (rayAt f g x d).start.gradient (rayAt f g x d).direction =
    number (g x ⬝ᵥ d) from dot_lift (g x) d]
  exact h a ha

theorem sufficientDecrease_add (y y0 a slope c c1 : K) :
    sufficientDecrease (number (y + c)) (number (y0 + c)) (number a) (number slope) (number c1) =
      sufficientDecrease (number y) (number y0) (number a) (number slope) (number c1) := by
  rw [Bool.eq_iff_iff]
  simp only [sufficientDecrease_iff, number_mul, number_add, number_lt, number_le,
    add_lt_add_iff_right, add_right_comm y0 c, add_le_add_iff_right]

variable (h : m.Carries f g o o')
include h

theorem Carries.matches_trialValue (z : Fin n → K) (alpha : Exact K) :
    Eval.Matches (fun a a' => a = number (f z) ∧ a' = number (f z + m.offset))
      (trialValue o (lift z) alpha) (trialValue o' (lift (m.point z)) alpha) :=
  (h.value z).next (.of_ok (if_pos rfl) (if_pos rfl) (.pure ⟨rfl, rfl⟩))

theorem Carries.matches_trialGradient (z : Fin n → K) (alpha : Exact K) :
    Eval.Matches (fun v v' => v = lift (g z) ∧ v' = lift (m.pull (g z)))
      (trialGradient o (lift z) alpha) (trialGradient o' (lift (m.point z)) alpha) :=
  (h.gradient z).next
    (.of_ok (if_pos (allFinite_lift _)) (if_pos (allFinite_lift _)) (.pure ⟨rfl, rfl⟩))

/-- A trial that is taken if the value has decreased sufficiently, and else goes on. -/
theorem Carries.matches_armijoTrial {σ σ' : Type} {I : σ → σ' → Prop} {a c1 : K} (trials : ℕ)
    {next : Exact K → Eval (Exact K) (Vector (Exact K) n) (σ ⊕ Step (Exact K) _)}
    {next' : Exact K → Eval (Exact K) (Vector (Exact K) n) (σ' ⊕ Step (Exact K) _)}
    (hnext : Eval.Matches (Sum.LiftRel I (m.Steps f g)) (next (number (f (x + a • d))))
      (next' (number (f (x + a • d) + m.offset)))) :
    let r := rayAt f g x d
    Eval.Matches (Sum.LiftRel I (m.Steps f g))
      (do
        let y ← trialValue o (r.along (number a)) (number a)
        if sufficientDecrease y r.start.value (number a) (number (g x ⬝ᵥ d)) (number c1) then
          let w ← trialGradient o (r.along (number a)) (number a)
          return .inr (.accepted (number a) ⟨r.along (number a), y, w⟩ (trials + 1) 1 .armijo)
        else next y)
      (do
        let y ← trialValue o' ((m.ray r).along (number a)) (number a)
        if sufficientDecrease y (m.ray r).start.value (number a) (number (g x ⬝ᵥ d))
            (number c1) then
          let w ← trialGradient o' ((m.ray r).along (number a)) (number a)
          return .inr
            (.accepted (number a) ⟨(m.ray r).along (number a), y, w⟩ (trials + 1) 1 .armijo)
        else next' y) := by
  intro r
  rw [rayAt_along, ray_along]
  refine (h.matches_trialValue _ _).next (.ite ?_ (fun _ => ?_) fun _ => hnext)
  · rw [ray_value, rayAt_value, sufficientDecrease_add]
  · refine (h.matches_trialGradient _ _).next (.pure (.inr ?_))
    rw [← m.iterate_eq f g]
    exact m.steps_accepted f g _ _ _ _ _

end Trials

end AffineChange

open AffineChange

section Shrinking
variable {m : AffineChange K n} {f : (Fin n → K) → K} {g : (Fin n → K) → Fin n → K}
  {o o' : Oracle (Exact K) (Vector (Exact K) n) (Matrix (Exact K) n)} (h : m.Carries f g o o')
include h

/-- Both searches contract the same steps. -/
theorem Backtracking.matches_search {s : Backtracking (Exact K)} (hs : s.check = .ok ())
    (x d : Fin n → K) (asked : Option (Exact K)) :
    Eval.Matches (m.Steps f g) (s.search o (rayAt f g x d) asked)
      (s.search o' (m.ray (rayAt f g x d)) asked) := by
  obtain ⟨⟨hc, hc'⟩, hrho, hrho'⟩ := check_eq_ok hs
  obtain ⟨c1, hc1, -, -⟩ := exists_of_lt_lt hc hc'
  obtain ⟨ρ, hρ, -, -⟩ := exists_of_lt_lt hrho hrho'
  refine matches_prepared fun a _ => ?_
  refine .rounds (I := fun t t' => t' = t ∧ ∃ a, t.alpha = number a) (C := m.Steps f g) ?_
    ⟨rfl, a, rfl⟩ _ ?_
  · rintro ⟨_, trials⟩ _ ⟨rfl, a, rfl⟩
    simp only [attempt, hc1]
    refine h.matches_armijoTrial trials (.ite Iff.rfl (fun _ => ?_) fun _ => ?_)
    · exact .pure (.inr (m.steps_failed f g x d _ _ _))
    · exact .pure (.inl ⟨rfl, a * ρ, by rw [hρ, number_mul]⟩)
  · rintro _ _ (⟨rfl, -⟩ | hsteps)
    · exact .pure (m.steps_failed f g x d _ _ _)
    · exact .pure hsteps

end Shrinking

namespace Interpolation

theorem quadraticMinimizer_add (y0 y c : K) (slope alpha : Exact K) :
    quadraticMinimizer (number (y0 + c)) slope alpha (number (y + c)) =
      quadraticMinimizer (number y0) slope alpha (number y) := by
  simp only [quadraticMinimizer, number_sub, add_sub_add_right_eq_sub]

theorem cubicMinimizer_add (y0 y y' c : K) (slope a a' : Exact K) :
    cubicMinimizer (number (y0 + c)) slope a (number (y + c)) a' (number (y' + c)) =
      cubicMinimizer (number y0) slope a (number y) a' (number y') := by
  simp only [cubicMinimizer, number_sub, add_sub_add_right_eq_sub]

end Interpolation

namespace CubicBacktracking
variable {m : AffineChange K n} {f : (Fin n → K) → K} {g : (Fin n → K) → Fin n → K}
  {o o' : Oracle (Exact K) (Vector (Exact K) n) (Matrix (Exact K) n)}

/-- The state of a search for values that are higher by `c`. -/
def State.raised (c : K) (t : State (Exact K)) : State (Exact K) :=
  { t with previous := t.previous.map fun p => (p.1, p.2 + number c) }

/-- The step is a positive number, and so is the value at the trial before it. -/
structure Numeric (t : State (Exact K)) : Prop where
  alpha : ∃ a, 0 < a ∧ t.alpha = number a
  previous : ∀ p, t.previous = some p → ∃ y, p.2 = number y

theorem Numeric.shrink_raised {t : State (Exact K)} (h : Numeric t)
    (s : CubicBacktracking (Exact K)) (c y0 y : K) (slope : Exact K) :
    s.shrink (number (y0 + c)) slope (t.raised c) (number (y + c)) =
      s.shrink (number y0) slope t (number y) := by
  cases hp : t.previous with
  | none => simp only [shrink, State.raised, hp, Option.map_none,
      Interpolation.quadraticMinimizer_add]
  | some p =>
    obtain ⟨y', hy'⟩ := h.previous p hp
    simp only [shrink, State.raised, hp, Option.map_some, hy', number_add,
      Interpolation.cubicMinimizer_add]

/-- Both searches interpolate through the same differences. -/
theorem matches_search {s : CubicBacktracking (Exact K)} (h : m.Carries f g o o')
    (hs : s.check = .ok ()) (x d : Fin n → K) (asked : Option (Exact K)) :
    Eval.Matches (m.Steps f g) (s.search o (rayAt f g x d) asked)
      (s.search o' (m.ray (rayAt f g x d)) asked) := by
  obtain ⟨⟨hc, hc'⟩, -⟩ := check_eq_ok hs
  obtain ⟨c1, hc1, -, -⟩ := exists_of_lt_lt hc hc'
  refine matches_prepared fun a ha => ?_
  refine .rounds (I := fun t t' => t' = t.raised m.offset ∧ Numeric t) (C := m.Steps f g) ?_
    ⟨rfl, ⟨a, ha, rfl⟩, fun _ h => by cases h⟩ _ ?_
  · rintro t _ ⟨rfl, ht⟩
    obtain ⟨a, ha, halpha⟩ := ht.alpha
    have hraised : (t.raised m.offset).alpha = number a := halpha
    simp only [attempt, hc1, halpha, hraised]
    refine h.matches_armijoTrial t.trials (.of_eq (ht.shrink_raised s _ _ _ _) fun b hb => ?_)
    refine .ite Iff.rfl (fun _ => ?_) fun _ => ?_
    · exact .pure (.inr (m.steps_failed f g x d _ _ _))
    · refine .pure (.inl ⟨rfl, shrink_eq_ok hs ha halpha hb, ?_⟩)
      rintro _ ⟨⟩
      exact ⟨_, rfl⟩
  · rintro _ _ (⟨rfl, -⟩ | hsteps)
    · exact .pure (m.steps_failed f g x d _ _ _)
    · exact .pure hsteps

end CubicBacktracking

namespace Bisection
variable {m : AffineChange K n} {f : (Fin n → K) → K} {g : (Fin n → K) → Fin n → K}
  {o o' : Oracle (Exact K) (Vector (Exact K) n) (Matrix (Exact K) n)} {x d : Fin n → K}
  {s : Bisection (Exact K)} {t : State (Exact K) (Vector (Exact K) n)}

/-- The state of the search along the image of a ray. -/
def State.moved (m : AffineChange K n) (t : State (Exact K) (Vector (Exact K) n)) :
    State (Exact K) (Vector (Exact K) n) :=
  { t with best := t.best.map fun b => (b.1, m.iterate b.2) }

/-- The ends of the bracket are numbers, one of which is positive, and the best step reached an
iterate of the field. -/
structure Numeric (f : (Fin n → K) → K) (g : (Fin n → K) → Fin n → K)
    (t : State (Exact K) (Vector (Exact K) n)) : Prop where
  low : ∃ a, 0 ≤ a ∧ t.low = number a
  high : ∀ h, t.high = some h → ∃ b, 0 < b ∧ h = number b
  best : ∀ a y, t.best = some (a, y) → ∃ z, y = iterateAt f g z

theorem Numeric.steps_conclude (h : Numeric f g t) :
    m.Steps f g (s.conclude (rayAt f g x d) t)
      (s.conclude (m.ray (rayAt f g x d)) (t.moved m)) := by
  unfold conclude
  cases hbest : t.best with
  | none =>
    simp only [State.moved, hbest, Option.map_none]
    exact m.steps_failed f g x d _ _ _
  | some b =>
    obtain ⟨z, hz⟩ := h.best b.1 b.2 hbest
    simp only [State.moved, hbest, Option.map_some, hz]
    exact m.steps_accepted f g z _ _ _ _

/-- Both searches move on in the same way. -/
theorem Numeric.advance (h : Numeric f g t) (hpos : t.high = none → 0 < t.low) :
    Sum.LiftRel (fun t t' => t' = t.moved m ∧ (∃ a, 0 < a ∧ t.alpha = number a) ∧ Numeric f g t)
      (m.Steps f g) (s.advance (rayAt f g x d) t)
      (s.advance (m.ray (rayAt f g x d)) (t.moved m)) := by
  obtain ⟨a, ha, hlow⟩ := h.low
  have hnumber := exists_nextStep ha hlow h.high fun hn => number_lt.mp (hlow ▸ hpos hn)
  have hmoved : Numeric f g { t with alpha := nextStep t.low t.high } := ⟨h.low, h.high, h.best⟩
  let u : State (Exact K) (Vector (Exact K) n) := { t with alpha := nextStep t.low t.high }
  change Sum.LiftRel _ _
    (if s.exhausted u then .inr (s.conclude (rayAt f g x d) u) else .inl u)
    (if s.exhausted u then .inr (s.conclude (m.ray (rayAt f g x d)) (u.moved m))
      else .inl (u.moved m))
  split_ifs
  · exact .inr hmoved.steps_conclude
  · exact .inl ⟨rfl, hnumber, hmoved⟩

/-- Both searches halve the same brackets. -/
theorem matches_search (h : m.Carries f g o o') (hs : s.check = .ok ()) (x d : Fin n → K)
    (asked : Option (Exact K)) :
    Eval.Matches (m.Steps f g) (s.search o (rayAt f g x d) asked)
      (s.search o' (m.ray (rayAt f g x d)) asked) := by
  obtain ⟨⟨hc, hc'⟩, -⟩ := check_eq_ok hs
  obtain ⟨c1, hc1, -, -⟩ := exists_of_lt_lt hc hc'
  refine matches_prepared fun a ha => ?_
  have hstart : Numeric f g (initial (number a)) :=
    ⟨⟨0, le_rfl, rfl⟩, fun _ h => (by cases h), fun _ _ h => (by cases h)⟩
  refine .rounds (I := fun t t' => t' = t.moved m ∧ (∃ a, 0 < a ∧ t.alpha = number a) ∧
    Numeric f g t) (C := m.Steps f g) ?_ ⟨rfl, ⟨a, ha, rfl⟩, hstart⟩ _ ?_
  · rintro t _ ⟨rfl, ⟨a, ha, halpha⟩, ht⟩
    have hmoved : (t.moved m).alpha = number a := halpha
    simp only [attempt, hc1, halpha, hmoved, rayAt_along, ray_along]
    refine (h.matches_trialValue _ _).next (.ite ?_ (fun _ => ?_) fun _ => .pure ?_)
    · rw [ray_value, rayAt_value, sufficientDecrease_add]
    · refine (h.matches_trialGradient _ _).next (.ite Iff.rfl (fun _ => ?_) fun _ => ?_)
      · rw [← m.iterate_eq f g]
        exact .pure (.inr (m.steps_accepted f g _ _ _ _ _))
      · refine .of_eq ?_ fun forward _ => .ite Iff.rfl (fun _ => ?_) fun _ => .pure ?_
        · simp
        · rw [← m.iterate_eq f g]
          exact .pure (.inr (m.steps_accepted f g _ _ _ _ _))
        · have hnext : Numeric f g
              { t with
                low := number a, best := some (number a, iterateAt f g (x + a • d)),
                values := t.values + 1, gradients := t.gradients + 1 } :=
            ⟨⟨a, ha.le, rfl⟩, ht.high, fun _ _ h => by cases h; exact ⟨_, rfl⟩⟩
          rw [← m.iterate_eq f g]
          exact hnext.advance fun _ => number_lt.mpr ha
    · have hnext : Numeric f g
          { t with high := upperEnd (number a), values := t.values + 1 } :=
        ⟨ht.low, fun _ h => by cases h; exact ⟨a, ha, rfl⟩, ht.best⟩
      exact hnext.advance fun h => by cases h
  · rintro _ _ (⟨rfl, -, ht⟩ | hsteps)
    · exact .pure ht.steps_conclude
    · exact .pure hsteps

end Bisection

end Downhill
