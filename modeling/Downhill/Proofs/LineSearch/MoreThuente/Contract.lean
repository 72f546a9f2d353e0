import Downhill.Proofs.Exact.Basic
import Downhill.Proofs.LineSearch.MoreThuente.Trial

/-! The bracketing search for the strong Wolfe conditions keeps the contract. Its trials and the
ends of its interval are numbers that are not negative. A trial may be the start itself, when the
interval has shrunk onto it; such a trial does not decrease the value and so is never taken. -/
namespace Downhill.MoreThuente
variable {K V M : Type} [ExactField K] [Space (Exact K) V] {o : Oracle (Exact K) V M}
  {r : Ray (Exact K) V} {before : ℕ × ℕ} {s : MoreThuente (Exact K)} {st : State (Exact K) V}
  {l : Ledger (Exact K) V}

open Exact

/-- The constants and the lower bound of an accepted search are numbers. -/
structure Accepted (s : MoreThuente (Exact K)) (c1 c2 low : K) : Prop where
  c1_eq : s.c1 = number c1
  c2_eq : s.c2 = number c2
  low_eq : s.alphaMin = number low
  c1_pos : 0 < c1
  c1_lt : c1 < c2
  c2_lt : c2 < 1
  low_nonneg : 0 ≤ low
  low_lt : number low < s.alphaMax

theorem exists_accepted (h : s.check = .ok ()) : ∃ c1 c2 low, Accepted s c1 c2 low := by
  obtain ⟨⟨⟨h1, h1'⟩, h12, h2⟩, hmin, hlt⟩ := check_eq_ok h
  obtain ⟨c1, hc1, hpos, -⟩ := exists_of_lt_lt h1 h1'
  obtain ⟨c2, hc2, hc12, hc2'⟩ := exists_of_lt_lt (hc1 ▸ h12) h2
  obtain ⟨low, hlow, hnonneg⟩ := exists_of_le_lt hmin hlt
  exact ⟨c1, c2, low, hc1, hc2, hlow, hpos, hc12, hc2', hnonneg, hlow ▸ hlt⟩

/-- A number that is not negative. -/
def Forward (a : Exact K) : Prop := ∃ x, 0 ≤ x ∧ a = number x

/-- The trial, the ends of the interval and the best step seen. -/
structure Ranged (s : MoreThuente (Exact K)) (o : Oracle (Exact K) V M) (r : Ray (Exact K) V)
    (st : State (Exact K) V) : Prop where
  trial : Forward st.trial
  best : Forward st.best.step
  other : Forward st.other.step
  candidate : ∀ a y, st.candidate = some (a, y) → r.Admits o s.c1 a y

def Underway (s : MoreThuente (Exact K)) (o : Oracle (Exact K) V M) (r : Ray (Exact K) V)
    (before : ℕ × ℕ) (st : State (Exact K) V) (l : Ledger (Exact K) V) : Prop :=
  Ranged s o r st ∧ l.asked = (before.1 + st.trials, before.2 + st.trials)

variable {c1 c2 low : K}

theorem Accepted.forward_clamp (hs : Accepted s c1 c2 low) {a : Exact K}
    (ha : Scalar.isFinite a = true) : Forward (Scalar.clamp s.alphaMin s.alphaMax a) := by
  obtain ⟨x, rfl⟩ := isFinite_iff.mp ha
  obtain ⟨z, hz, hle, -, -⟩ := exists_clamp hs.low_lt x
  exact ⟨z, hs.low_nonneg.trans hle, by rw [hs.low_eq, hz]⟩

omit [Space (Exact K) V] in
theorem isFinite_proposal {u : Update (Exact K)} (hx : Scalar.isFinite u.best.step = true)
    (hy : Scalar.isFinite u.other.step = true) (hu : Scalar.isFinite u.next = true) :
    Scalar.isFinite (proposal st u) = true := by
  obtain ⟨x, hx⟩ := isFinite_iff.mp hx
  obtain ⟨y, hy⟩ := isFinite_iff.mp hy
  unfold proposal
  split_ifs
  · simp [hx, hy]
  · exact hu

omit [Space (Exact K) V] in
theorem Accepted.forward_settle (hs : Accepted s c1 c2 low) {u : Update (Exact K)}
    (hx : Forward u.best.step) (hy : Forward u.other.step) (hu : Scalar.isFinite u.next = true) :
    Forward (s.settle st u).trial := by
  obtain ⟨x, -, hxe⟩ := id hx
  obtain ⟨y, -, hye⟩ := id hy
  have hproposal : Scalar.isFinite (proposal st u) = true :=
    isFinite_proposal (hxe ▸ rfl) (hye ▸ rfl) hu
  cases hb : u.bracketed with
  | true =>
    rw [settle_of_bracketed s st u hb]
    dsimp only
    split_ifs
    · exact hx
    · exact hs.forward_clamp hproposal
  | false =>
    rw [settle_of_unbracketed s st u hb]
    exact hs.forward_clamp hproposal

/-- The step of a trial that decreased the value is positive, and the trial may be taken: at the
start itself the value would be that of the start. -/
theorem admits_of_lt {a : K} {y : Iterate (Exact K) V} (ha : 0 ≤ a)
    (hstay : r.along 0 = r.start.point) (hstart : o.valueAt r.start.point = .ok r.start.value)
    (hp : y.point = r.along (number a)) (hf : o.valueAt y.point = .ok y.value)
    (hg : o.gradientAt y.point = .ok y.gradient) (hlt : y.value < r.start.value)
    (hle : y.value ≤ r.start.value + s.c1 * number a *
      Space.inner r.start.gradient r.direction) : r.Admits o s.c1 (number a) y := by
  rcases ha.eq_or_lt with rfl | ha
  · have h0 : r.along (number 0) = r.start.point := hstay
    rw [hp, h0, hstart] at hf
    rw [Except.ok.inj hf] at hlt
    exact absurd hlt (lt_irrefl _)
  · exact ⟨number_lt.mpr ha, hp, hf, hg, hlt, hle⟩

section Trial
variable {a m : K} {y : Iterate (Exact K) V}

/-- What the search knows of a trial: where it is, and what the oracle says there. -/
structure Tried (o : Oracle (Exact K) V M) (r : Ray (Exact K) V) (st : State (Exact K) V)
    (y : Iterate (Exact K) V) : Prop where
  point_eq : y.point = r.along st.trial
  value_eq : o.valueAt y.point = .ok y.value
  gradient_eq : o.gradientAt y.point = .ok y.gradient
  value_finite : Scalar.isFinite y.value = true

/-- The start of a search: a negative slope, the value of the oracle, and, if the slope is a number,
the ray begins at the start. -/
structure Begun (o : Oracle (Exact K) V M) (r : Ray (Exact K) V) : Prop where
  slope_neg : Space.inner r.start.gradient r.direction < 0
  value_eq : o.valueAt r.start.point = .ok r.start.value
  along_zero : ∀ m, Space.inner r.start.gradient r.direction = number m →
    r.along 0 = r.start.point

variable (hs : Accepted s c1 c2 low) (hb : Begun o r) (h : Ranged s o r st) (hy : Tried o r st y)
include hs hb h hy

/-- An acceptable trial may be taken, and meets the strong curvature condition. -/
theorem admits_of_acceptable
    (ht : s.acceptable r.start.value (Space.inner r.start.gradient r.direction)
      ⟨st.trial, y.value, Space.inner y.gradient r.direction⟩ = true) :
    r.Admits o s.c1 st.trial y ∧ Scalar.abs (Space.inner y.gradient r.direction) ≤
      s.c2 * Scalar.abs (Space.inner r.start.gradient r.direction) := by
  obtain ⟨a, ha, hta⟩ := h.trial
  obtain ⟨f, hfy⟩ := isFinite_iff.mp hy.value_finite
  simp only [acceptable, Bool.and_eq_true, decide_eq_true_eq] at ht
  obtain ⟨⟨hle, hlt⟩, hcurv⟩ := ht
  rw [hta, hs.c1_eq, hfy] at hle
  obtain ⟨m, hm, hneg⟩ := exists_of_le_add_mul_mul hb.slope_neg ha hs.c1_pos hle
  constructor
  · rw [hta]
    refine admits_of_lt ha (hb.along_zero m hm) hb.value_eq (hta ▸ hy.point_eq) hy.value_eq
      hy.gradient_eq hlt ?_
    rw [hm, number_mul, number_mul] at hle
    rw [hs.c1_eq, hm, hfy, number_mul, number_mul, mul_comm c1 a, mul_assoc]
    exact hle
  · rw [hs.c2_eq, hm, number_neg, number_mul] at hcurv
    rw [hs.c2_eq, hm, abs_number, number_mul, abs_of_neg hneg, mul_neg, ← neg_mul]
    exact hcurv

theorem admits_of_better {b : Exact K} {z : Iterate (Exact K) V}
    (ht : s.better r.start.value (Space.inner r.start.gradient r.direction) st.candidate
      st.trial y = some (b, z)) : r.Admits o s.c1 b z := by
  obtain ⟨a, ha, hta⟩ := h.trial
  obtain ⟨f, hfy⟩ := isFinite_iff.mp hy.value_finite
  unfold better at ht
  split_ifs at ht with hd
  · obtain ⟨rfl, rfl⟩ := Prod.mk.inj (Option.some.inj ht)
    simp only [Bool.and_eq_true] at hd
    obtain ⟨hlt, hle⟩ := sufficientDecrease_iff.mp hd.1
    rw [hta] at hle ⊢
    have hle' := hle
    rw [hfy, hs.c1_eq, number_mul] at hle'
    obtain ⟨m, hm, -⟩ := exists_of_le_add_mul hb.slope_neg (mul_nonneg hs.c1_pos.le ha) hle'
    exact admits_of_lt ha (hb.along_zero m hm) hb.value_eq (hta ▸ hy.point_eq) hy.value_eq
      hy.gradient_eq hlt hle
  · exact h.candidate b z ht

end Trial

theorem meets_conclude {candidate : Option (Exact K × Iterate (Exact K) V)} {trials : ℕ}
    {cause : EarlyStop} (h : ∀ a y, candidate = some (a, y) → r.Admits o s.c1 a y)
    (hl : l.asked = (before.1 + trials, before.2 + trials)) :
    (conclude r candidate trials cause).Meets o r s.c1 (some s.c2) before l := by
  unfold conclude
  split
  · exact Step.meets_accepted (h _ _ rfl) hl nofun nofun
  · exact Step.meets_failed hl nofun nofun

theorem rounded_judge (hs : Accepted s c1 c2 low) (hb : Begun o r) (h : Ranged s o r st)
    {y : Iterate (Exact K) V} (hy : Tried o r st y)
    (hl : l.asked = (before.1 + (st.trials + 1), before.2 + (st.trials + 1))) :
    Rounded (ε := Fault (Exact K)) (Underway s o r before)
      (fun step l => step.Meets o r s.c1 (some s.c2) before l) (fun _ _ => True)
      (.ok (s.judge r (Space.inner r.start.gradient r.direction) st y)) l := by
  have hbetter := fun b z => admits_of_better (b := b) (z := z) hs hb h hy
  obtain ⟨hacc, hj⟩ | ⟨cause, hj⟩ | ⟨-, -, hfin, hj⟩ :=
    judge_cases s r (Space.inner r.start.gradient r.direction) st y <;> rw [hj]
  · obtain ⟨hadmits, hcurv⟩ := admits_of_acceptable hs hb h hy hacc
    exact ⟨fun _ => hadmits, nofun, hl, fun _ => ⟨_, rfl, hcurv⟩, nofun⟩
  · exact meets_conclude hbetter hl
  · obtain ⟨hbest, hother⟩ := update_steps s r.start.value
      (Space.inner r.start.gradient r.direction) st
      (outlasts s r (Space.inner r.start.gradient r.direction) st y) (tried r st y)
      h.best h.other h.trial
    refine ⟨⟨hs.forward_settle hbest hother hfin, ?_, ?_, fun b z hz => ?_⟩, ?_⟩
    · simpa [after, updateAfter] using hbest
    · simpa [after, updateAfter] using hother
    · exact hbetter b z (by simpa [after, candidateAfter] using hz)
    · simpa [after] using hl

/-- A round judges a trial with the value and the gradient that the oracle has there. -/
theorem ensures_tried (ho : o.Quiet) (slope : Exact K) (st : State (Exact K) V) :
    Ensures (fun l => l.asked = before) (s.attempt o.recorded r slope st)
      (Answered fun u l => (∃ y, Tried o r st y ∧ Space.finite y.gradient = true ∧
        u = s.judge r slope st y) ∧ l.asked = (before.1 + 1, before.2 + 1)) := by
  refine .bind_of_eq (ensures_value ho _ _ _) (fun f hf => ?_) fun _ _ => trivial
  refine .bind_of_eq (ensures_gradient ho _ _ _) (fun g hg => ?_) fun _ _ => trivial
  refine .bind_of_eq (Eval.ensures_ofExcept _) (fun _ hfin => ?_) fun _ _ => trivial
  refine .bind_of_eq (Eval.ensures_ofExcept _) (fun _ hgfin => ?_) fun _ _ => trivial
  refine .bind_of_eq (Eval.ensures_ofExcept _) (fun _ _ => ?_) fun _ _ => trivial
  refine .pure fun l hl => ⟨⟨_, ?_, checkArray_eq_ok_iff.mp hgfin, rfl⟩, hl⟩
  exact ⟨rfl, hf, hg, checkScalar_eq_ok_iff.mp hfin⟩

theorem ensures_attempt (hs : Accepted s c1 c2 low) (ho : o.Quiet) (hb : Begun o r)
    (st : State (Exact K) V) :
    Ensures (Underway s o r before st)
      (s.attempt o.recorded r (Space.inner r.start.gradient r.direction) st)
      (Rounded (Underway s o r before)
        (fun step l => step.Meets o r s.c1 (some s.c2) before l) fun _ _ => True) := by
  refine .of_fact fun h => .mono (ensures_tried ho _ st) (fun _ hl => hl) fun u l hu => ?_
  cases u with
  | ok u =>
    obtain ⟨⟨y, hy, -, rfl⟩, hl⟩ := hu
    exact rounded_judge hs hb h hy hl
  | error f => trivial

theorem ensures_search (hs : s.check = .ok ()) (ho : o.Quiet) (r : Ray (Exact K) V)
    (asked : Option (Exact K)) (before : ℕ × ℕ)
    (hstart : o.valueAt r.start.point = .ok r.start.value)
    (hstay : ∀ m, Space.inner r.start.gradient r.direction = number m →
      r.along 0 = r.start.point) :
    Ensures (fun l => l.asked = before) (s.search o.recorded r asked)
      (Answered fun step l => step.Meets o r s.c1 (some s.c2) before l) := by
  obtain ⟨c1, c2, low, hs⟩ := exists_accepted hs
  refine ensures_prepared fun alpha hneg _ hfin => ?_
  refine .mono (ensures_rounds (ensures_attempt hs ho ⟨hneg, hstart, hstay⟩) _ _ (fun st => ?_)
    fun _ => rfl) (fun l hl => ⟨⟨hs.forward_clamp hfin, ?_, ?_, nofun⟩, hl⟩) fun _ _ h => h
  · exact .pure fun l hl => meets_conclude hl.1.candidate hl.2
  · exact ⟨0, le_rfl, rfl⟩
  · exact ⟨0, le_rfl, rfl⟩

end Downhill.MoreThuente
