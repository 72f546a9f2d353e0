import Downhill.Proofs.Exact.Basic
import Downhill.Proofs.LineSearch.Contract

/-! The two backtracking searches keep the contract. Their trial steps stay positive numbers: a
fixed contraction multiplies by a positive number, and an interpolated step is kept within a share
of the step before it. -/
namespace Downhill
variable {K V M : Type} [ExactField K] [Space (Exact K) V] {o : Oracle (Exact K) V M}
  {r : Ray (Exact K) V} {before : ℕ × ℕ}

open Exact

/-- Before a trial the step is a positive number, and every trial so far asked for one value. -/
def Shrinking (before : ℕ × ℕ) (alpha : Exact K) (trials : ℕ) (l : Ledger (Exact K) V) : Prop :=
  (∃ a, 0 < a ∧ alpha = number a) ∧ l.asked = (before.1 + trials, before.2)

namespace Backtracking

theorem check_eq_ok {α : Type} [Scalar α] {s : Backtracking α} (h : s.check = .ok ()) :
    (0 < s.c1 ∧ s.c1 < 1) ∧ 0 < s.rho ∧ s.rho < 1 := by
  obtain ⟨_, hc, h⟩ := bind_eq_ok_iff.mp h
  refine ⟨checkArmijo_eq_ok_iff.mp hc, ?_⟩
  by_contra hr
  dsimp only at h
  rw [if_neg hr] at h
  cases h

theorem maxIter_of_check {α : Type} [Scalar α] {s : Backtracking α} (h : s.check = .ok ()) :
    1 ≤ s.maxIter := by
  obtain ⟨-, hrho⟩ := check_eq_ok h
  obtain ⟨_, -, h⟩ := bind_eq_ok_iff.mp h
  by_contra hno
  dsimp only at h
  rw [if_pos hrho, if_neg hno] at h
  cases h

theorem ensures_attempt {s : Backtracking (Exact K)} (hs : s.check = .ok ()) (ho : o.Quiet)
    (t : State (Exact K)) :
    Ensures (Shrinking before t.alpha t.trials)
      (s.attempt o.recorded r (Space.inner r.start.gradient r.direction) t)
      (Rounded (fun t => Shrinking before t.alpha t.trials)
        (fun step l => step.Meets o r s.c1 none before l) fun _ _ => True) := by
  obtain ⟨-, hrho⟩ := check_eq_ok hs
  obtain ⟨rho, hr, hpos, -⟩ := exists_of_lt_lt hrho.1 hrho.2
  refine .of_fact fun ⟨a, ha, hta⟩ => ?_
  refine ensures_armijoTrial ho (hta ▸ number_lt.mpr ha) _ fun f => ?_
  refine .ite (fun _ => ?_) fun _ => ?_
  · exact .pure fun l hl => Step.meets_failed hl nofun nofun
  · refine .pure fun l hl => ⟨⟨a * rho, mul_pos ha hpos, ?_⟩, hl⟩
    rw [hta, hr, number_mul]

theorem ensures_search {s : Backtracking (Exact K)} (hs : s.check = .ok ()) (ho : o.Quiet)
    (r : Ray (Exact K) V) (asked : Option (Exact K)) (before : ℕ × ℕ) :
    Ensures (fun l => l.asked = before) (s.search o.recorded r asked)
      (Answered fun step l => step.Meets o r s.c1 none before l) := by
  refine ensures_prepared fun alpha _ hpos hfin => ?_
  refine .mono (ensures_rounds (ensures_attempt hs ho) _ _ (fun t => ?_) fun _ => rfl)
    (fun l hl => ⟨exists_of_pos hpos hfin, hl⟩) fun _ _ h => h
  exact .pure fun l hl => Step.meets_failed hl.2 nofun nofun

end Backtracking

namespace Interpolation
variable {α : Type} [Scalar α] {f0 slope a0 fa0 a1 fa1 t u : α}

theorem usable_eq_some (h : usable u = some t) : Scalar.isFinite t = true ∧ 0 < t := by
  unfold usable at h
  split_ifs at h with hu
  cases h
  exact hu

theorem cubicStep_eq_some {a b : α} (h : cubicStep slope a b = some t) :
    Scalar.isFinite t = true ∧ 0 < t := by
  simp only [cubicStep] at h
  split_ifs at h
  · exact usable_eq_some h
  · exact usable_eq_some h

theorem quadraticMinimizer_eq_some (h : quadraticMinimizer f0 slope a1 fa1 = .ok (some t)) :
    Scalar.isFinite t = true ∧ 0 < t := by
  simp only [quadraticMinimizer] at h
  split_ifs at h
  · cases h
  · obtain ⟨a2, -, h⟩ := bind_eq_ok_iff.mp h
    exact usable_eq_some (Except.ok.inj h)

theorem cubicMinimizer_eq_some (h : cubicMinimizer f0 slope a0 fa0 a1 fa1 = .ok (some t)) :
    Scalar.isFinite t = true ∧ 0 < t := by
  obtain ⟨s0, -, h⟩ := bind_eq_ok_iff.mp h
  obtain ⟨s1, -, h⟩ := bind_eq_ok_iff.mp h
  dsimp only at h
  split_ifs at h
  · cases h
  · obtain ⟨k0, -, h⟩ := bind_eq_ok_iff.mp h
    obtain ⟨k1, -, h⟩ := bind_eq_ok_iff.mp h
    exact cubicStep_eq_some (Except.ok.inj h)

end Interpolation

namespace CubicBacktracking

theorem check_eq_ok {α : Type} [Scalar α] {s : CubicBacktracking α} (h : s.check = .ok ()) :
    (0 < s.c1 ∧ s.c1 < 1) ∧ (0 < s.rho ∧ s.rho < 1) ∧ 0 < s.low ∧ s.low ≤ s.high ∧ s.high < 1 := by
  obtain ⟨_, hc, h⟩ := bind_eq_ok_iff.mp h
  refine ⟨checkArmijo_eq_ok_iff.mp hc, ?_⟩
  dsimp only at h
  by_cases hr : 0 < s.rho ∧ s.rho < 1
  · refine ⟨hr, ?_⟩
    by_contra hn
    rw [if_pos hr, if_neg hn] at h
    cases h
  · rw [if_neg hr] at h
    cases h

/-- The shares of the old step between which the new one is kept, and the fixed contraction. -/
theorem exists_numbers {s : CubicBacktracking (Exact K)} (hs : s.check = .ok ()) :
    ∃ rho low high, s.rho = number rho ∧ s.low = number low ∧ s.high = number high ∧
      0 < low ∧ low ≤ high := by
  obtain ⟨-, hrho, hlow, hle, hhigh⟩ := check_eq_ok hs
  obtain ⟨rho, hr, -, -⟩ := exists_of_lt_lt hrho.1 hrho.2
  obtain ⟨low, hl, hpos, -⟩ := exists_of_lt_lt hlow (lt_of_le_of_lt hle hhigh)
  obtain ⟨high, hh, -, -⟩ := exists_of_lt_lt (lt_of_lt_of_le hlow hle) hhigh
  exact ⟨rho, low, high, hr, hl, hh, hpos, by simpa [hl, hh] using hle⟩

/-- A new step is a finite proposal, kept between two shares of the old step. -/
theorem exists_of_shrink_eq_ok {s : CubicBacktracking (Exact K)} {f0 slope f alpha : Exact K}
    {t : State (Exact K)} (hr : Scalar.isFinite (s.rho * t.alpha) = true)
    (h : s.shrink f0 slope t f = .ok alpha) :
    ∃ b, alpha = Scalar.clamp (s.low * t.alpha) (s.high * t.alpha) (number b) := by
  have key : ∀ m : Option (Exact K), (∀ b, m = some b → Scalar.isFinite b = true) →
      Scalar.clamp (s.low * t.alpha) (s.high * t.alpha) (m.getD (s.rho * t.alpha)) = alpha →
      ∃ b, alpha = Scalar.clamp (s.low * t.alpha) (s.high * t.alpha) (number b) := by
    rintro (_ | b) hb rfl
    · obtain ⟨b, hb⟩ := isFinite_iff.mp hr
      exact ⟨b, by rw [← hb, Option.getD_none]⟩
    · obtain ⟨b', rfl⟩ := isFinite_iff.mp (hb b rfl)
      exact ⟨b', rfl⟩
  simp only [shrink] at h
  split at h
  · obtain ⟨m, hm, h⟩ := bind_eq_ok_iff.mp h
    refine key m (fun b hb => ?_) (Except.ok.inj h)
    exact (Interpolation.quadraticMinimizer_eq_some (hb ▸ hm)).1
  · obtain ⟨m, hm, h⟩ := bind_eq_ok_iff.mp h
    refine key m (fun b hb => ?_) (Except.ok.inj h)
    exact (Interpolation.cubicMinimizer_eq_some (hb ▸ hm)).1

theorem shrink_eq_ok {s : CubicBacktracking (Exact K)} (hs : s.check = .ok ())
    {f0 slope f alpha : Exact K} {t : State (Exact K)} {a : K} (ha : 0 < a)
    (hta : t.alpha = number a) (h : s.shrink f0 slope t f = .ok alpha) :
    ∃ b, 0 < b ∧ alpha = number b := by
  obtain ⟨rho, low, high, hr, hl, hh, hpos, hle⟩ := exists_numbers hs
  obtain ⟨b, hb⟩ := exists_of_shrink_eq_ok (by rw [hr, hta, number_mul, isFinite_number]) h
  refine ⟨min (max b (low * a)) (high * a), ?_, ?_⟩
  · have hla := mul_pos hpos ha
    exact lt_min (lt_max_of_lt_right hla) (mul_pos (hpos.trans_le hle) ha)
  · rw [hb, hl, hh, hta, number_mul, number_mul, clamp_number]

theorem ensures_attempt {s : CubicBacktracking (Exact K)} (hs : s.check = .ok ()) (ho : o.Quiet)
    (t : State (Exact K)) :
    Ensures (Shrinking before t.alpha t.trials)
      (s.attempt o.recorded r (Space.inner r.start.gradient r.direction) t)
      (Rounded (fun t => Shrinking before t.alpha t.trials)
        (fun step l => step.Meets o r s.c1 none before l) fun _ _ => True) := by
  refine .of_fact fun ⟨a, ha, hta⟩ => ?_
  refine ensures_armijoTrial ho (hta ▸ number_lt.mpr ha) _ fun f => ?_
  refine .bind_of_eq (Eval.ensures_ofExcept _) (fun b hb => ?_) fun _ _ => trivial
  refine .ite (fun _ => ?_) fun _ => ?_
  · exact .pure fun l hl => Step.meets_failed hl nofun nofun
  · exact .pure fun l hl => ⟨shrink_eq_ok hs ha hta hb, hl⟩

theorem ensures_search {s : CubicBacktracking (Exact K)} (hs : s.check = .ok ()) (ho : o.Quiet)
    (r : Ray (Exact K) V) (asked : Option (Exact K)) (before : ℕ × ℕ) :
    Ensures (fun l => l.asked = before) (s.search o.recorded r asked)
      (Answered fun step l => step.Meets o r s.c1 none before l) := by
  refine ensures_prepared fun alpha _ hpos hfin => ?_
  refine .mono (ensures_rounds (ensures_attempt hs ho) _ _ (fun t => ?_) fun _ => rfl)
    (fun l hl => ⟨exists_of_pos hpos hfin, hl⟩) fun _ _ h => h
  exact .pure fun l hl => Step.meets_failed hl.2 nofun nofun

end CubicBacktracking

end Downhill
