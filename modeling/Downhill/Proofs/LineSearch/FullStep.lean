import Downhill.Proofs.LineSearch.Family
import Downhill.Proofs.LineSearch.Faults

/-! Full steps. Where a step of length one leads to a point without slope, and the value falls by
half of the slope on the way, a search that tries this step first takes it: every share of the slope
up to one half is reached, and every curvature condition holds. -/
namespace Downhill
variable {K M : Type} [ExactField K] {n : ℕ}

open Exact

section Trials
variable {o : Oracle (Exact K) (Vector (Exact K) n) M} {x : Vector (Exact K) n} (alpha : Exact K)

theorem replies_trialValue {f : K} (h : Replies (o.value x) fun a => a = number f) :
    Replies (trialValue o x alpha) fun a => a = number f := by
  refine .bind h fun a ha => ?_
  subst ha
  exact .bind (R := fun _ => True) (Eval.replies_ofExcept (if_pos rfl) trivial)
    fun _ _ => .pure rfl

theorem replies_trialGradient {g : Fin n → K} (h : Replies (o.gradient x) fun v => v = lift g) :
    Replies (trialGradient o x alpha) fun v => v = lift g := by
  refine .bind h fun v hv => ?_
  subst hv
  exact .bind (R := fun _ => True) (Eval.replies_ofExcept (if_pos (allFinite_lift g)) trivial)
    fun _ _ => .pure rfl

end Trials

/-- Over the full step the value falls from `f` by half of the slope `m`, and no slope is left. -/
structure Ray.Bottoms (r : Ray (Exact K) (Vector (Exact K) n))
    (o : Oracle (Exact K) (Vector (Exact K) n) M) (f m : K) : Prop where
  start : r.start.value = number f
  slope : Space.inner r.start.gradient r.direction = number m
  neg : m < 0
  value : Replies (o.value (r.along 1)) fun a => a = number (f + m / 2)
  gradient : Replies (o.gradient (r.along 1)) fun v => v = lift 0

namespace LineSearch

/-- The search accepts its parameters, it asks for no more than half of the slope, and the first
step is one, which its bounds allow. -/
structure TakesFullSteps (s : LineSearch (Exact K)) : Prop where
  check : s.check = .ok ()
  armijo : ∃ c1, s.armijo? = some c1 ∧ c1 ≤ number (1 / 2)
  firstStep : s.firstStep? = some 1
  bounds : ∀ t, s = .moreThuente t → t.alphaMin ≤ 1 ∧ 1 ≤ t.alphaMax

end LineSearch

section Tests
variable {f m c : K} (hm : m < 0) (hc : c ≤ 1 / 2)
include hm hc

theorem value_le_of_half : f + m / 2 ≤ f + c * m := by
  have h := mul_le_mul_of_nonpos_right hc hm.le
  rw [one_div_mul_eq_div] at h
  exact add_le_add_right h f

theorem sufficientDecrease_of_half :
    sufficientDecrease (number (f + m / 2)) (number f) 1 (number m) (number c) = true := by
  have hlt : f + m / 2 < f := add_lt_of_neg_right f (by linarith)
  have hle := value_le_of_half (f := f) hm hc
  simp only [sufficientDecrease, one_eq, number_mul, number_add, mul_one, number_lt, number_le,
    hlt, hle, decide_true, Bool.and_self]

end Tests

/-- The preparations succeed along a direction that descends, with a first step that is positive. -/
theorem Ray.prepare_number (r : Ray (Exact K) (Vector (Exact K) n)) {default : Exact K}
    {asked : Option (Exact K)} {a : K} (hdescent : Space.inner r.start.gradient r.direction < 0)
    (ha : 0 < a) (hasked : asked.getD default = number a) :
    r.prepare default asked = .ok (Space.inner r.start.gradient r.direction, number a) := by
  obtain ⟨-, -, -, hready⟩ | ⟨-, -, -, hno⟩ := r.prepare_cases default asked
  · rwa [hasked] at hready
  · rw [hasked] at hno
    exact absurd ⟨hdescent, number_lt.mpr ha, rfl⟩ hno

/-- Along a direction that descends a search may begin with a full step. -/
theorem Ray.prepare_one {r : Ray (Exact K) (Vector (Exact K) n)} {m : K}
    (h : Space.inner r.start.gradient r.direction = number m) (hm : m < 0) :
    r.prepare 1 none = .ok (number m, 1) := by
  rw [← h]
  apply r.prepare_number _ one_pos rfl
  rw [h]
  exact number_lt.mpr hm

namespace Ray.Bottoms
variable {o : Oracle (Exact K) (Vector (Exact K) n) M} {r : Ray (Exact K) (Vector (Exact K) n)}
  {f m c : K} (h : r.Bottoms o f m)
include h

theorem slope_neg : Space.inner r.start.gradient r.direction < 0 := by
  rw [h.slope]
  exact h.neg

theorem inner_zero : Space.inner (lift 0) r.direction = number (0 : K) := by
  obtain ⟨_, d, -, hd, -⟩ := exists_of_dot_eq h.slope
  rw [hd, Space.inner_vector, dot_lift, zero_dotProduct]

theorem decreases (hc : c ≤ 1 / 2) :
    sufficientDecrease (number (f + m / 2)) r.start.value 1 (number m) (number c) = true := by
  rw [h.start]
  exact sufficientDecrease_of_half h.neg hc

/-- What follows the preparations of a search begins with the full step. -/
theorem replies_prepared {β : Type} {Q : β → Prop}
    {next : Exact K × Exact K → Eval (Exact K) (Vector (Exact K) n) β}
    (hnext : Replies (next (number m, 1)) Q) :
    Replies (Eval.ofExcept (r.prepare 1 none) >>= next) Q := by
  have hprepare := Ray.prepare_one h.slope h.neg
  refine .bind (Eval.replies_ofExcept (Q := fun p => p = (number m, 1)) hprepare rfl) fun p hp => ?_
  subst hp
  exact hnext

end Ray.Bottoms

/-- The step has length one and reached `y`. -/
def Step.Full (step : Step (Exact K) (Vector (Exact K) n))
    (y : Iterate (Exact K) (Vector (Exact K) n)) : Prop :=
  ∃ values gradients message, step = .accepted 1 y values gradients message

/-- A trial of the bracketing search at which the oracle has numbers is judged. -/
theorem MoreThuente.replies_judge {o : Oracle (Exact K) (Vector (Exact K) n) M}
    {r : Ray (Exact K) (Vector (Exact K) n)} (s : MoreThuente (Exact K)) (slope : Exact K)
    {st : State (Exact K) (Vector (Exact K) n)} {f : K} {g : Fin n → K}
    (hvalue : Replies (o.value (r.along st.trial)) fun a => a = number f)
    (hgradient : Replies (o.gradient (r.along st.trial)) fun v => v = lift g) :
    Replies (s.attempt o r slope st) fun u =>
      u = s.judge r slope st ⟨r.along st.trial, number f, lift g⟩ := by
  refine .bind hvalue fun a ha => .bind hgradient fun v hv => ?_
  subst ha hv
  refine .bind (R := fun _ => True) (Eval.replies_ofExcept (if_pos rfl) trivial) fun _ _ => ?_
  refine .bind (R := fun _ => True)
    (Eval.replies_ofExcept (if_pos (allFinite_lift g)) trivial) fun _ _ => ?_
  refine .bind (R := fun _ => True) (Eval.replies_ofExcept rfl trivial) fun _ _ => ?_
  exact .pure rfl

section Attempts
variable {o : Oracle (Exact K) (Vector (Exact K) n) M} {r : Ray (Exact K) (Vector (Exact K) n)}
  {f m c : K} (h : r.Bottoms o f m) (hc : c ≤ 1 / 2)
include h hc

/-- A trial that is taken if the value has decreased sufficiently, and else goes on with `next`. -/
theorem replies_armijoTrial {σ : Type}
    {next : Exact K →
      Eval (Exact K) (Vector (Exact K) n) (σ ⊕ Step (Exact K) (Vector (Exact K) n))} :
    Replies
      (do
        let a ← trialValue o (r.along 1) 1
        if sufficientDecrease a r.start.value 1 (number m) (number c) then
          let v ← trialGradient o (r.along 1) 1
          return .inr (.accepted 1 ⟨r.along 1, a, v⟩ 1 1 .armijo)
        else next a)
      fun u => ∃ step, u = .inr step ∧ step.Full ⟨r.along 1, number (f + m / 2), lift 0⟩ := by
  refine .bind (replies_trialValue 1 h.value) fun a ha => ?_
  subst ha
  rw [h.decreases hc, if_pos rfl]
  refine .bind (replies_trialGradient 1 h.gradient) fun v hv => ?_
  subst hv
  exact .pure ⟨_, rfl, _, _, _, rfl⟩

theorem Bisection.replies_attempt {s : Bisection (Exact K)} (hs : s.c1 = number c) {c2 : K}
    (hs2 : s.c2 = number c2) (hc2 : 0 < c2) :
    Replies (s.attempt o r (number m) (initial 1)) fun u => ∃ step, u = .inr step ∧
      step.Full ⟨r.along 1, number (f + m / 2), lift 0⟩ := by
  refine .bind (replies_trialValue 1 h.value) fun a ha => ?_
  subst ha
  rw [show (initial 1 : State (Exact K) (Vector (Exact K) n)).alpha = 1 from rfl, hs,
    h.decreases hc, if_pos rfl]
  refine .bind (replies_trialGradient 1 h.gradient) fun v hv => ?_
  subst hv
  refine .ite (fun _ => .pure ⟨_, rfl, _, _, _, rfl⟩) fun _ => ?_
  have hforward : Space.dot? (lift 0) r.direction = (.ok (number 0) : Except (Fault (Exact K)) _) :=
    (Space.dot?_vector _ _).trans (congrArg Except.ok h.inner_zero)
  refine .bind (Eval.replies_ofExcept (Q := fun b => b = number 0) hforward rfl) fun b hb => ?_
  have hcurved : s.c2 * number m ≤ b := by
    rw [hb, hs2, number_mul, number_le]
    exact (mul_neg_of_pos_of_neg hc2 h.neg).le
  rw [if_pos hcurved]
  exact .pure ⟨_, rfl, _, _, _, rfl⟩

theorem MoreThuente.replies_attempt {s : MoreThuente (Exact K)} (hs : s.c1 = number c) {c2 : K}
    (hs2 : s.c2 = number c2) (hc2 : 0 < c2) :
    Replies (s.attempt o r (number m) (s.initial r.start.value (number m) 1)) fun u =>
      ∃ step, u = .inr step ∧ step.Full ⟨r.along 1, number (f + m / 2), lift 0⟩ := by
  have hacceptable : s.acceptable r.start.value (number m)
      ⟨1, number (f + m / 2), Space.inner (lift 0) r.direction⟩ = true := by
    have hlt : f + m / 2 < f := add_lt_of_neg_right f (by linarith [h.neg])
    have hle := value_le_of_half (f := f) h.neg hc
    have hsteep : 0 ≤ -c2 * m := (mul_pos_of_neg_of_neg (neg_neg_of_pos hc2) h.neg).le
    simp only [acceptable, h.start, h.inner_zero, hs, hs2, one_eq, number_mul, number_add,
      number_neg, abs_number, abs_zero, one_mul, number_lt, number_le, hlt, hle, hsteep,
      decide_true, Bool.and_self]
  have hround : Replies (s.attempt o r (number m) (s.initial r.start.value (number m) 1)) _ :=
    replies_judge s (number m) h.value h.gradient
  exact hround.mono fun u hu => ⟨_, hu.trans (if_pos hacceptable), _, _, _, rfl⟩

end Attempts

namespace LineSearch
variable {o : Oracle (Exact K) (Vector (Exact K) n) M} {r : Ray (Exact K) (Vector (Exact K) n)}
  {f m : K} {s : LineSearch (Exact K)}

/-- The cap on the trials of a search. -/
def cap? {α : Type} : LineSearch α → Option ℤ
  | base => none
  | backtracking s => some s.maxIter
  | cubic s => some s.maxIter
  | bisection s => some s.maxIter
  | moreThuente s => some s.maxEvals

omit [ExactField K] in
/-- An accepted search makes a trial. -/
theorem cap_pos {α : Type} [Scalar α] {s : LineSearch α} (hs : s.check = .ok ()) {cap : ℤ}
    (h : s.cap? = some cap) : 0 < cap.toNat := by
  have key : 1 ≤ cap := by
    by_contra hno
    cases s <;> cases h <;> obtain ⟨_, -, hs⟩ := bind_eq_ok_iff.mp hs <;>
      simp only [if_neg hno] at hs
    case bisection => cases hs
    all_goals split_ifs at hs <;> cases hs
  omega

/-- A search that tries the full step first takes it, if it leads to the minimum along the ray. -/
theorem TakesFullSteps.replies_search (hs : s.TakesFullSteps) (h : r.Bottoms o f m) :
    Replies (s.search o r none) fun step =>
      step.Full ⟨r.along 1, number (f + m / 2), lift 0⟩ := by
  obtain ⟨c1, harmijo, hle⟩ := hs.armijo
  obtain ⟨c, rfl, hpos⟩ := exists_armijo hs.check harmijo
  have hc : c ≤ 1 / 2 := number_le.mp hle
  have hfirst := hs.firstStep
  cases s with
  | base => cases harmijo
  | backtracking s =>
    obtain ⟨alpha0, rho, c1, maxIter, alphaMin⟩ := s
    cases harmijo
    cases hfirst
    exact h.replies_prepared (.upTo_first (cap_pos hs.check rfl) (replies_armijoTrial h hc)
      fun _ => rfl)
  | cubic s =>
    obtain ⟨alpha0, rho, c1, low, high, maxIter, alphaMin⟩ := s
    cases harmijo
    cases hfirst
    exact h.replies_prepared (.upTo_first (cap_pos hs.check rfl) (replies_armijoTrial h hc)
      fun _ => rfl)
  | bisection s =>
    obtain ⟨-, h12, h2⟩ := Bisection.check_eq_ok hs.check
    obtain ⟨alpha0, c1, c2, wolfe, maxIter, alphaMin, alphaMax⟩ := s
    cases harmijo
    cases hfirst
    obtain ⟨c2, rfl, hlt, -⟩ := exists_of_lt_lt h12 h2
    exact h.replies_prepared (.upTo_first (cap_pos hs.check rfl)
      (Bisection.replies_attempt h hc rfl rfl (hpos.trans hlt)) fun _ => rfl)
  | moreThuente s =>
    obtain ⟨c1', c2, low, haccepted⟩ := MoreThuente.exists_accepted hs.check
    obtain ⟨hlow, hhigh⟩ := hs.bounds s rfl
    have hc1 : s.c1 = number c := Option.some.inj harmijo
    obtain rfl := Exact.number.inj (hc1.symm.trans haccepted.c1_eq)
    have hround := MoreThuente.replies_attempt h hc hc1 haccepted.c2_eq (hpos.trans haccepted.c1_lt)
    change Replies (Eval.ofExcept (r.prepare s.alpha0 none) >>= _) _
    rw [show s.alpha0 = 1 from Option.some.inj hfirst]
    refine h.replies_prepared ?_
    simp only [clamp_eq_self hlow hhigh]
    exact .upTo_first (cap_pos hs.check rfl) hround fun _ => rfl

/-- Backtracking as it stands. -/
theorem takesFullSteps_standard :
    (backtracking (.standard : Backtracking (Exact K))).TakesFullSteps where
  check := by
    have hpos : (0 : Exact K) < 1e-4 ∧ (1e-4 : Exact K) < 1 := by
      constructor <;> exact number_lt.mpr (by norm_num)
    have hhalf : (0 : Exact K) < 0.5 ∧ (0.5 : Exact K) < 1 := by
      constructor <;> exact number_lt.mpr (by norm_num)
    exact bind_eq_ok_iff.mpr ⟨(), if_pos hpos, (if_pos hhalf).trans rfl⟩
  armijo := ⟨_, rfl, number_le.mpr (by norm_num)⟩
  firstStep := congrArg (fun a => some (number a)) (by norm_num)
  bounds := by
    intro t ht
    have ht : backtracking .standard = moreThuente t := ht
    cases ht

end LineSearch

end Downhill
