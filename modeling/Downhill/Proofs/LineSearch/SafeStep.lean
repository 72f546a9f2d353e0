import Downhill.Proofs.LineSearch.FullStep

/-! Backtracking where short steps are safe. If along a ray every positive step up to a bound
decreases the value sufficiently, a search that may come down below the bound succeeds, and its step
is the first one or has not been contracted far below the bound. -/
namespace Downhill
variable {K M : Type} [ExactField K] {n : ℕ}

open Exact

/-- Along a ray of slope `m` from the value `f` an oracle has the values `φ` and the gradients `γ`,
and it is safe to go as far as `b`. -/
structure Ray.Safe (r : Ray (Exact K) (Vector (Exact K) n))
    (o : Oracle (Exact K) (Vector (Exact K) n) M) (c b f m : K) (φ : K → K)
    (γ : K → Fin n → K) : Prop where
  start : r.start.value = number f
  slope : Space.inner r.start.gradient r.direction = number m
  neg : m < 0
  value : ∀ t, Replies (o.value (r.along (number t))) fun a => a = number (φ t)
  gradient : ∀ t, Replies (o.gradient (r.along (number t))) fun v => v = lift (γ t)
  decreases : ∀ t, 0 < t → t ≤ b → φ t ≤ f + c * t * m

namespace Backtracking
variable {o : Oracle (Exact K) (Vector (Exact K) n) M} {r : Ray (Exact K) (Vector (Exact K) n)}
  {s : Backtracking (Exact K)} {c ρ b f m a : K} {φ : K → K} {γ : K → Fin n → K}

/-- The search, with the numbers `c` and `ρ` for its constants, may contract a first step `a` below
the bound `b`, and a step that it contracts from above the bound is not too short. -/
structure ReachesBelow (s : Backtracking (Exact K)) (c ρ b a : K) : Prop where
  c1 : s.c1 = number c
  c1_pos : 0 < c
  rho : s.rho = number ρ
  rho_pos : 0 < ρ
  maxIter : 1 ≤ s.maxIter
  alphaMin : s.alphaMin ≤ number (ρ * b)
  first_pos : 0 < a
  cap : a * ρ ^ (s.maxIter.toNat - 1) ≤ b

/-- The first step after `k` contractions; all steps before were above the bound. -/
def Contracted (ρ b a : K) (k : ℕ) (t : State (Exact K)) : Prop :=
  t = ⟨number (a * ρ ^ k), k⟩ ∧ ∀ i < k, b < a * ρ ^ i

/-- The step is a success and reached what the oracle has there. It decreases the value
sufficiently, and is the first one or was not contracted from below the bound. -/
def Settles (r : Ray (Exact K) (Vector (Exact K) n)) (c ρ b f m a : K) (φ : K → K)
    (γ : K → Fin n → K) (step : Step (Exact K) (Vector (Exact K) n)) : Prop :=
  ∃ t, step.success = true ∧ step.alpha = number t ∧
    step.reached = ⟨r.along (number t), number (φ t), lift (γ t)⟩ ∧
    0 < t ∧ φ t ≤ f + c * t * m ∧ min a (ρ * b) ≤ t

theorem sufficientDecrease_number {y t : K} (hc : 0 < c) (ht : 0 < t) (hm : m < 0) :
    sufficientDecrease (number y) (number f) (number t) (number m) (number c) = true ↔
      y ≤ f + c * t * m := by
  rw [sufficientDecrease_iff, number_mul, number_mul, number_add, number_lt, number_le,
    and_iff_right_iff_imp]
  intro h
  have hfall : c * t * m < 0 := mul_neg_of_pos_of_neg (mul_pos hc ht) hm
  exact h.trans_lt (add_lt_of_neg_right f hfall)

theorem Contracted.le_step {k : ℕ} {t : State (Exact K)} (h : Contracted ρ b a k t)
    (hρ : 0 < ρ) : min a (ρ * b) ≤ a * ρ ^ k := by
  cases k with
  | zero => exact (min_le_left _ _).trans_eq (by rw [pow_zero, mul_one])
  | succ k =>
    have hlast := mul_le_mul_of_nonneg_left (h.2 k k.lt_succ_self).le hρ.le
    exact (min_le_right _ _).trans (hlast.trans_eq (by ring))

/-- A trial is taken, or it was above the bound and is contracted. -/
theorem ensures_attempt_safe (hs : s.ReachesBelow c ρ b a) (hr : r.Safe o c b f m φ γ) (k : ℕ)
    (t : State (Exact K)) :
    Ensures (fun _ => Contracted ρ b a k t) (s.attempt o r (number m) t)
      (Rounded (fun t _ => Contracted ρ b a (k + 1) t)
        (fun step _ => Settles r c ρ b f m a φ γ step) fun _ _ => False) := by
  refine .of_known (R := fun _ => True) (fun _ ht => ⟨ht, trivial⟩) fun ⟨ht, hbefore⟩ => ?_
  subst ht
  have hpos : 0 < a * ρ ^ k := mul_pos hs.first_pos (pow_pos hs.rho_pos k)
  refine Surely.bind (replies_trialValue _ (hr.value _)) fun y => ?_
  refine .of_known (R := fun _ => True) (fun _ hy => ⟨hy, trivial⟩) fun hy => ?_
  subst hy
  rw [hr.start, hs.c1]
  refine .ite (fun hdecrease => ?_) fun hno => ?_
  · refine Surely.bind (replies_trialGradient _ (hr.gradient _)) fun v => ?_
    refine .pure fun _ hv => ?_
    subst hv
    exact ⟨_, rfl, rfl, rfl, hpos, (sufficientDecrease_number hs.c1_pos hpos hr.neg).mp hdecrease,
      Contracted.le_step ⟨rfl, hbefore⟩ hs.rho_pos⟩
  · have habove : b < a * ρ ^ k := by
      refine not_le.mp fun hle => hno ?_
      exact (sufficientDecrease_number hs.c1_pos hpos hr.neg).mpr (hr.decreases _ hpos hle)
    have hnext : number (a * ρ ^ k) * s.rho = number (a * ρ ^ (k + 1)) := by
      rw [hs.rho, number_mul, pow_succ, mul_assoc]
    refine .ite (fun hshort => absurd hshort ?_) fun _ => .pure fun _ _ => ?_
    · intro hshort
      have hlow := lt_of_lt_of_le hshort hs.alphaMin
      rw [hnext, number_lt, pow_succ, ← mul_assoc, mul_comm] at hlow
      exact (lt_of_mul_lt_mul_left hlow hs.rho_pos.le).not_gt habove
    · refine ⟨congrArg (State.mk · (k + 1)) hnext, fun i hi => ?_⟩
      obtain hi | rfl := Nat.lt_succ_iff_lt_or_eq.mp hi
      · exact hbefore i hi
      · exact habove

/-- The search succeeds. -/
theorem replies_search_safe (hs : s.ReachesBelow c ρ b a) (hr : r.Safe o c b f m φ γ) :
    Replies (s.search o r (some (number a))) (Settles r c ρ b f m a φ γ) := by
  have hprepare : r.prepare s.alpha0 (some (number a)) = .ok (number m, number a) := by
    have hneg : Space.inner r.start.gradient r.direction < 0 := by
      rw [hr.slope]
      exact number_lt.mpr hr.neg
    obtain ⟨-, -, -, hready⟩ | ⟨-, -, -, hno⟩ := r.prepare_cases s.alpha0 (some (number a))
    · rwa [hr.slope] at hready
    · exact absurd ⟨hneg, number_lt.mpr hs.first_pos, rfl⟩ hno
  refine .bind (Eval.replies_ofExcept (Q := fun p => p = (number m, number a)) hprepare rfl)
    fun p hp => ?_
  subst hp
  have hbegin : Contracted ρ b a 0 ⟨number a, 0⟩ :=
    ⟨by rw [pow_zero, mul_one], fun i hi => absurd hi i.not_lt_zero⟩
  have hround : ∀ k < s.maxIter.toNat, ∀ t, _ := fun k _ t => ensures_attempt_safe hs hr k t
  have hloop := Ensures.upTo_counted hround ⟨number a, 0⟩
  refine Ensures.mono (P := fun _ => Contracted ρ b a 0 ⟨number a, 0⟩) ?_ (fun _ _ => hbegin)
    fun _ _ h => h
  refine Ensures.bind hloop (fun u => ?_) fun _ _ h => h
  cases u with
  | inr step => exact .pure fun _ h => h
  | inl t =>
    refine .of_known (φ := Contracted ρ b a s.maxIter.toNat t) (R := fun _ => True)
      (fun _ h => ⟨h, trivial⟩) fun h => ?_
    have hlast : s.maxIter.toNat - 1 < s.maxIter.toNat :=
      Nat.sub_lt (Int.pos_iff_toNat_pos.mp hs.maxIter) one_pos
    exact absurd hs.cap (h.2 _ hlast).not_ge

end Backtracking

end Downhill
