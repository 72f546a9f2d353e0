import Downhill.Proofs.Exact.Basic
import Downhill.Proofs.LineSearch.Contract

/-! The search by doubling and halving keeps the contract. Its trials are positive numbers: the
lower end of the bracket is not negative, an upper end is positive, and without an upper end the
lower one is a trial already. The best step is one that may be taken. -/
namespace Downhill.Bisection
variable {K V M : Type} [ExactField K] [Space (Exact K) V] {o : Oracle (Exact K) V M}
  {r : Ray (Exact K) V} {before : ℕ × ℕ} {s : Bisection (Exact K)} {t : State (Exact K) V}
  {l : Ledger (Exact K) V}

open Exact

theorem check_eq_ok {α : Type} [Scalar α] {s : Bisection α} (h : s.check = .ok ()) :
    (0 < s.c1 ∧ s.c1 < 1) ∧ s.c1 < s.c2 ∧ s.c2 < 1 := by
  obtain ⟨_, hc, -⟩ := bind_eq_ok_iff.mp h
  exact checkWolfe_eq_ok_iff.mp hc

/-- The ends of the bracket and the best step, whatever the next trial is. -/
structure Bracketed (s : Bisection (Exact K)) (o : Oracle (Exact K) V M) (r : Ray (Exact K) V)
    (t : State (Exact K) V) : Prop where
  low : ∃ a, 0 ≤ a ∧ t.low = number a
  high : ∀ h, t.high = some h → ∃ b, 0 < b ∧ h = number b
  best : ∀ a y, t.best = some (a, y) → r.Admits o s.c1 a y

/-- Before a trial the step is a positive number as well, and the counts are those of the
account. -/
def Underway (s : Bisection (Exact K)) (o : Oracle (Exact K) V M) (r : Ray (Exact K) V)
    (before : ℕ × ℕ) (t : State (Exact K) V) (l : Ledger (Exact K) V) : Prop :=
  ((∃ a, 0 < a ∧ t.alpha = number a) ∧ Bracketed s o r t) ∧
    l.asked = (before.1 + t.values, before.2 + t.gradients)

/-- After a trial the bracket has an upper end or a positive lower end, so the next trial is
positive. -/
theorem exists_nextStep {low : Exact K} {high : Option (Exact K)} {a : K} (ha : 0 ≤ a)
    (hlow : low = number a) (hhigh : ∀ h, high = some h → ∃ b, 0 < b ∧ h = number b)
    (hpos : high = none → 0 < a) : ∃ c, 0 < c ∧ nextStep low high = number c := by
  cases high with
  | none =>
    refine ⟨2.0 * a, mul_pos (by norm_num) (hpos rfl), ?_⟩
    simp [nextStep, hlow]
  | some h =>
    obtain ⟨b, hb, rfl⟩ := hhigh h rfl
    refine ⟨0.5 * (a + b), mul_pos (by norm_num) (by linarith), ?_⟩
    simp [nextStep, hlow]

theorem meets_conclude (h : Bracketed s o r t)
    (hl : l.asked = (before.1 + t.values, before.2 + t.gradients)) :
    (s.conclude r t).Meets o r s.c1 (some s.c2) before l := by
  unfold conclude
  split
  · rename_i a y hbest
    exact Step.meets_accepted (h.best a y hbest) hl nofun nofun
  · exact Step.meets_failed hl nofun nofun

/-- After the trial has become an end of the bracket, the search goes on from a positive step or
concludes. -/
theorem rounded_advance (h : Bracketed s o r t) (hpos : t.high = none → 0 < t.low)
    (hl : l.asked = (before.1 + t.values, before.2 + t.gradients)) :
    Rounded (ε := Fault (Exact K)) (Underway s o r before)
      (fun step l => step.Meets o r s.c1 (some s.c2) before l) (fun _ _ => True)
      (.ok (s.advance r t)) l := by
  obtain ⟨a, ha, hlow⟩ := h.low
  have hposa : t.high = none → 0 < a := fun hn => number_lt.mp (hlow ▸ hpos hn)
  obtain ⟨c, hc, hnext⟩ := exists_nextStep ha hlow h.high hposa
  have hmoved : Bracketed s o r { t with alpha := nextStep t.low t.high } :=
    ⟨h.low, h.high, h.best⟩
  simp only [advance]
  split_ifs
  · exact meets_conclude hmoved hl
  · exact ⟨⟨⟨c, hc, hnext⟩, hmoved⟩, hl⟩

theorem ensures_attempt (ho : o.Quiet) (t : State (Exact K) V) :
    Ensures (Underway s o r before t)
      (s.attempt o.recorded r (Space.inner r.start.gradient r.direction) t)
      (Rounded (Underway s o r before)
        (fun step l => step.Meets o r s.c1 (some s.c2) before l) fun _ _ => True) := by
  refine .of_fact fun ⟨⟨a, ha, hta⟩, hb⟩ => ?_
  refine .bind (ensures_trialValue ho _ _ _ _) (fun f => ?_) fun _ _ _ => trivial
  refine .of_fact fun ⟨hf, _⟩ => .ite (fun hd => ?_) fun _ => ?_
  · refine .bind (ensures_trialGradient ho _ _ _ _) (fun g => ?_) fun _ _ _ => trivial
    refine .of_fact fun ⟨hg, _⟩ => ?_
    have hadmits := Ray.admits_of_sufficientDecrease (hta ▸ number_lt.mpr ha) hf hg hd
    refine .ite (fun _ => ?_) fun _ => ?_
    · exact .pure fun l hl => Step.meets_accepted hadmits hl nofun nofun
    · refine .bind_of_eq (Eval.ensures_ofExcept _) (fun m hm => ?_) fun _ _ => trivial
      obtain ⟨_, -, hm⟩ := bind_eq_ok_iff.mp hm
      obtain rfl := Except.ok.inj hm
      refine .ite (fun hw => ?_) fun _ => ?_
      · exact .pure fun l hl => ⟨fun _ => hadmits, nofun, hl, nofun, fun _ => ⟨_, rfl, hw⟩⟩
      · refine .pure fun l hl => rounded_advance ⟨⟨a, ha.le, hta⟩, hb.high, ?_⟩ (fun _ => ?_) hl
        · rintro _ _ ⟨⟩
          exact hadmits
        · exact hta ▸ number_lt.mpr ha
  · refine .pure fun l hl => rounded_advance ⟨hb.low, ?_, hb.best⟩ (fun hn => ?_) hl
    · intro h hh
      rw [hta] at hh
      exact ⟨a, ha, (Option.some.inj hh).symm⟩
    · rw [hta] at hn
      cases hn

theorem ensures_search (ho : o.Quiet) (r : Ray (Exact K) V) (asked : Option (Exact K))
    (before : ℕ × ℕ) :
    Ensures (fun l => l.asked = before) (s.search o.recorded r asked)
      (Answered fun step l => step.Meets o r s.c1 (some s.c2) before l) := by
  refine ensures_prepared fun alpha _ hpos hfin => ?_
  refine .mono (ensures_rounds (ensures_attempt ho) _ _ (fun t => ?_) fun _ => rfl)
    (fun l hl => ⟨⟨exists_of_pos hpos hfin, ⟨0, le_rfl, rfl⟩, nofun, nofun⟩, hl⟩) fun _ _ h => h
  exact .pure fun l hl => meets_conclude hl.1.2 hl.2

end Downhill.Bisection
