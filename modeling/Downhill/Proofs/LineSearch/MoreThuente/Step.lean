import Downhill.Proofs.LineSearch.MoreThuente.Contract
import Downhill.Proofs.LineSearch.MoreThuente.Extrapolation

/-! One round of the bracketing search on numbers. A trial that does not end the search lies inside
the interval and is rejected; the ends move in one of three ways, the best step seen keeps the value
of the best end, and the next trial lies where the interval wants it. -/
namespace Downhill.MoreThuente
variable {K V : Type} [ExactField K] {s : MoreThuente (Exact K)} {c1 c2 low f0 m : K}
  {st : State (Exact K) V} {x y p : End K}

open Exact

theorem between_of_min_max {a b t : K} (h₁ : min a b < t) (h₂ : t < max a b) : Between a b t := by
  rcases min_lt_iff.mp h₁ with ha | hb <;> rcases lt_max_iff.mp h₂ with ha' | hb'
  · exact absurd ha ha'.not_gt
  · exact .inl ⟨ha, hb'⟩
  · exact .inr ⟨hb, ha'⟩
  · exact absurd hb hb'.not_gt

theorem Between.min_lt_max {a b t : K} (h : Between a b t) : min a b < t ∧ t < max a b := by
  obtain ⟨hat, htb⟩ | ⟨hbt, hta⟩ := h
  · exact ⟨min_lt_of_left_lt hat, lt_max_of_lt_right htb⟩
  · exact ⟨min_lt_of_right_lt hbt, lt_max_of_lt_left hta⟩

/-- A bracketed interval between the steps `a` and `b`, with its bounds and its width. -/
structure Fitted (st : State (Exact K) V) (a b : K) : Prop where
  best_eq : st.best.step = number a
  other_eq : st.other.step = number b
  low_eq : st.low = number (min a b)
  high_eq : st.high = number (max a b)
  width_eq : st.width = number |b - a|

section Settle
variable {u : Update (Exact K)} {a b : K} (hb : u.bracketed = true)
  (hbest : u.best.step = number a) (hother : u.other.step = number b)
include hb hbest hother

theorem fitted_settle : Fitted (s.settle st u) a b := by
  rw [settle_of_bracketed s st u hb]
  refine ⟨hbest, hother, ?_, ?_, ?_⟩ <;> simp only [hbest, hother]
  · exact smaller_number
  · exact larger_number
  · exact (congrArg Scalar.abs number_sub).trans abs_number

/-- In a bracketed interval the search tries its proposal, kept within the bounds, if that is
strictly inside, and else the best end. -/
theorem Accepted.trial_settle_cases (hs : Accepted s c1 c2 low) (hu : Scalar.isFinite u.next = true) :
    (s.settle st u).trial = number a ∨
      ∃ t, Scalar.clamp s.alphaMin s.alphaMax (proposal st u) = number t ∧
        (s.settle st u).trial = number t ∧ Between a b t := by
  have hfinite : Scalar.isFinite (proposal st u) = true :=
    isFinite_proposal (hbest ▸ rfl) (hother ▸ rfl) hu
  obtain ⟨t, -, ht⟩ := hs.forward_clamp hfinite
  rw [settle_of_bracketed s st u hb]
  simp only [hbest, hother, ht, smaller_number, larger_number]
  split_ifs with hend
  · exact .inl rfl
  · simp only [Bool.or_eq_true, decide_eq_true_eq, number_le, not_or, not_le] at hend
    exact .inr ⟨t, rfl, rfl, between_of_min_max hend.1.1 hend.1.2⟩

/-- Without a tolerance a proposal strictly inside, kept within the bounds, is the next trial. -/
theorem trial_settle_of_between (hxtol : s.xtol = 0) {t : K}
    (hclamp : Scalar.clamp s.alphaMin s.alphaMax (proposal st u) = number t)
    (hin : Between a b t) : (s.settle st u).trial = number t := by
  obtain ⟨hmin, hmax⟩ := hin.min_lt_max
  rw [settle_of_bracketed s st u hb]
  simp only [hbest, hother, hclamp, smaller_number, larger_number, hxtol, zero_eq, number_mul,
    number_sub, zero_mul, number_le]
  refine if_neg ?_
  simp only [Bool.or_eq_true, decide_eq_true_eq, not_or, not_le, sub_pos]
  exact ⟨⟨hmin, hmax⟩, hmin.trans hmax⟩

end Settle

/-- How a trial `p` changes the ends `x` and `y`. It becomes the other end where it is higher than
the best one, or above the line while the first stage goes on; else it becomes the best end, and the
former best end the other one if the slopes are opposite. -/
inductive Move (f0 g : K) (firstStage bracketed : Bool) (low high : Exact K) (x y p : End K) :
    Update (Exact K) → Prop
  | rise (next : Exact K) (h : x.value < p.value ∨ firstStage = true ∧ 0 < p.excess f0 g) :
      Move f0 g firstStage bracketed low high x y p ⟨x.exact, p.exact, next, true⟩
  | across (next : Exact K) (hle : p.value ≤ x.value)
      (hline : firstStage = true → p.excess f0 g ≤ 0) (hopp : p.slope * x.slope < 0) :
      Move f0 g firstStage bracketed low high x y p ⟨p.exact, x.exact, next, true⟩
  | onward (hle : p.value ≤ x.value) (hline : firstStage = true → p.excess f0 g ≤ 0)
      (hsame : ¬ p.slope * x.slope < 0) :
      Move f0 g firstStage bracketed low high x y p ⟨p.exact, y.exact,
        trialStep x.exact y.exact p.exact bracketed low high, bracketed⟩

/-- The best step seen has the value of the best end, and there is none as long as that end is the
start. -/
def Agrees (candidate : Option (Exact K × Iterate (Exact K) V)) (x : End K) : Prop :=
  (candidate = none ↔ x.step = 0) ∧ ∀ a z, candidate = some (a, z) → z.value = number x.value

namespace Accepted
variable (hs : Accepted s c1 c2 low)
include hs

theorem acceptable_eq_false_iff : s.acceptable (number f0) (number m) p.exact = false ↔
    Rejected f0 (c1 * m) (-c2 * m) p := by
  rw [← Bool.not_eq_true]
  simp [acceptable, Rejected, hs.c1_eq, hs.c2_eq, End.excess_nonpos_iff, and_assoc]

theorem sufficientDecrease_iff :
    sufficientDecrease (number p.value) (number f0) (number p.step) (number m) s.c1 = true ↔
      p.value < f0 ∧ p.excess f0 (c1 * m) ≤ 0 := by
  have hline : c1 * p.step * m = p.step * (c1 * m) := by ring
  simp [Downhill.sufficientDecrease_iff, hs.c1_eq, End.excess_nonpos_iff, hline]

/-- Where the search does not stop early, the trial is strictly between the bounds of a bracketed
interval, and a trial at the upper bound is above the line or less steep than it. -/
theorem earlyStop_eq_none (h : s.earlyStop (number f0) (number m) st p.exact = none) :
    (st.bracketed = true → ∀ a b, st.low = number a → st.high = number b →
      a < p.step ∧ p.step < b) ∧
    ((number p.step == s.alphaMax) = true → p.excess f0 (c1 * m) ≤ 0 → c1 * m < p.slope) := by
  constructor
  · intro hb a b ha hh
    simpa [ha, hh] using inside_of_earlyStop s _ st h hb
  · intro hmax hex
    simp only [earlyStop] at h
    split_ifs at h with hround hwidth hupper
    by_contra hn
    refine hupper ?_
    rw [End.excess_nonpos_iff] at hex
    simpa [hmax, hs.c1_eq] using ⟨hex, not_lt.mp hn⟩

/-- Whatever function was interpolated, the ends are old ends or the trial, with their own values
and slopes. -/
theorem move_update (hbest : st.best = x.exact) (hother : st.other = y.exact)
    (hex : x.excess f0 (c1 * m) ≤ 0) (firstStage : Bool) :
    Move f0 (c1 * m) firstStage st.bracketed st.low st.high x y p
      (s.update (number f0) (number m) st firstStage p.exact) := by
  have hmodified : (firstStage && decide (p.exact.value ≤ x.exact.value) &&
      decide (number f0 + p.exact.step * number (c1 * m) < p.exact.value)) = true ↔
        (firstStage = true ∧ p.value ≤ x.value) ∧ 0 < p.excess f0 (c1 * m) := by
    simp [← not_le, End.excess_nonpos_iff]
  simp only [update, hbest, hother, hs.c1_eq, number_mul]
  by_cases h : (firstStage = true ∧ p.value ≤ x.value) ∧ 0 < p.excess f0 (c1 * m)
  · have hrise : (x.exact.lowered (number (c1 * m))).value <
        (p.exact.lowered (number (c1 * m))).value := by
      rw [End.lowered_exact, End.lowered_exact]
      have hpos := h.2
      simp only [End.excess] at hex hpos
      exact number_lt.mpr (by dsimp only; linarith)
    rw [if_pos (hmodified.mpr h), safeguardedStep, if_pos hrise]
    simp only [End.raised_lowered]
    exact .rise _ (.inr ⟨h.1.1, h.2⟩)
  · rw [if_neg (mt hmodified.mp h)]
    have hbelow : p.value ≤ x.value → firstStage = true → p.excess f0 (c1 * m) ≤ 0 :=
      fun hle hfirst => not_lt.mp fun hpos => h ⟨⟨hfirst, hle⟩, hpos⟩
    obtain ⟨hrise, h⟩ | ⟨hle, hopp, h⟩ | ⟨hle, hsame, h⟩ :=
      safeguardedStep_cases x.exact y.exact p.exact st.bracketed st.low st.high <;> rw [h]
    · exact .rise _ (.inl hrise)
    · have hle := not_lt.mp (mt number_lt.mpr hle)
      exact .across _ hle (hbelow hle) (by simpa [opposite_number] using hopp)
    · have hle := not_lt.mp (mt number_lt.mpr hle)
      exact .onward hle (hbelow hle) (by simpa [opposite_number] using hsame)

section Candidate
variable {candidate : Option (Exact K × Iterate (Exact K) V)} {z : Iterate (Exact K) V}
  (hz : z.value = number p.value) (hagrees : Agrees candidate x)
include hz hagrees

/-- A trial that does not become the best end is no better than the best step seen. -/
theorem better_of_rise (hx : x.step = 0 → x.value = f0)
    (hrise : x.value < p.value ∨ 0 < p.excess f0 (c1 * m)) :
    s.better (number f0) (number m) candidate (number p.step) z = candidate := by
  refine if_neg fun hbetter => ?_
  rw [hz, Bool.and_eq_true, hs.sufficientDecrease_iff] at hbetter
  obtain ⟨⟨hlow, hex⟩, hall⟩ := hbetter
  have hxp := hrise.resolve_right hex.not_gt
  cases candidate with
  | none => exact hlow.not_gt (hx (hagrees.1.mp rfl) ▸ hxp)
  | some c =>
    have hc := hagrees.2 c.1 c.2 rfl
    simp only [Option.all_some, hc, decide_eq_true_eq, number_lt] at hall
    exact hall.not_gt hxp

/-- A trial that becomes the best end is the best step seen, or as good as it. -/
theorem agrees_better (hpos : 0 < p.step) (hlow : p.value < f0) (hex : p.excess f0 (c1 * m) ≤ 0)
    (hle : p.value ≤ x.value) :
    Agrees (s.better (number f0) (number m) candidate (number p.step) z) p := by
  have hdecrease := (hs.sufficientDecrease_iff (m := m)).mpr ⟨hlow, hex⟩
  simp only [better, hz, hdecrease, Bool.true_and]
  split_ifs with hall
  · refine ⟨by simp [hpos.ne'], ?_⟩
    rintro a w hw
    obtain ⟨-, rfl⟩ := Prod.mk.inj (Option.some.inj hw)
    exact hz
  · cases candidate with
    | none => simp at hall
    | some c =>
      have hc := hagrees.2 c.1 c.2 rfl
      simp only [Option.all_some, hc, decide_eq_true_eq, number_lt, not_lt] at hall
      refine ⟨by simp [hpos.ne'], ?_⟩
      rintro a w ⟨⟩
      rw [hc, le_antisymm hle hall]

end Candidate

end Accepted

end Downhill.MoreThuente
