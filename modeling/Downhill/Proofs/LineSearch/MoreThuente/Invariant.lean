import Downhill.Proofs.LineSearch.Family
import Downhill.Proofs.LineSearch.MoreThuente.Step

/-! The invariant of the bracketing search. It holds before the first trial, and every round that
goes on keeps it, so it holds at the start of every round. -/
namespace Downhill.MoreThuente
variable {K V : Type} [ExactField K] {s : MoreThuente (Exact K)} {c1 c2 low f0 m : K}
  {st : State (Exact K) V} {x y p : End K} {t : K}

open Exact

/-- Without a bracketed interval the trial lies beyond the best end, within the bounds of the search
and below the bound of the next step. -/
structure Ahead (s : MoreThuente (Exact K)) (low : K) (st : State (Exact K) V) (x : End K) (t : K) :
    Prop where
  right : x.step < t
  low_le : low ≤ t
  le_high : number t ≤ s.alphaMax
  bounds : ∃ a b, st.low = number a ∧ st.high = number b ∧ t < b

/-- In a bracketed interval the trial lies strictly between the ends or at the best one. -/
structure Framed (st : State (Exact K) V) (x y : End K) (t : K) : Prop where
  trial : Between x.step y.step t ∨ t = x.step
  low_eq : st.low = number (min x.step y.step)
  high_eq : st.high = number (max x.step y.step)

/-- What holds before a round: the ends and the trial are numbers, the ends are the start or trials
that were made, and the best step seen agrees with the best end. -/
structure Invariant (s : MoreThuente (Exact K)) (c1 low f0 m : K) (tested : End K → Prop)
    (st : State (Exact K) V) (x y : End K) (t : K) : Prop where
  best_eq : st.best = x.exact
  other_eq : st.other = y.exact
  trial_eq : st.trial = number t
  interval : Interval f0 (c1 * m) x y st.bracketed st.firstStage
  best_tested : x = ⟨0, f0, m⟩ ∨ 0 < x.step ∧ tested x
  other_tested : y = ⟨0, f0, m⟩ ∨ 0 < y.step ∧ tested y
  agrees : Agrees st.candidate x
  ahead : st.bracketed = false → Ahead s low st x t
  framed : st.bracketed = true → Framed st x y t

theorem Invariant.mono {tested tested' : End K → Prop}
    (h : Invariant s c1 low f0 m tested st x y t) (ht : ∀ e, tested e → tested' e) :
    Invariant s c1 low f0 m tested' st x y t :=
  { h with
    best_tested := h.best_tested.imp_right (And.imp_right (ht x))
    other_tested := h.other_tested.imp_right (And.imp_right (ht y)) }

theorem Invariant.initial {tested : End K → Prop} (hs : Accepted s c1 c2 low) (hm : m < 0) {a : K}
    (ha : 0 < a) :
    ∃ t, Invariant s c1 low f0 m tested (s.initial (number f0) (number m)
      (Scalar.clamp s.alphaMin s.alphaMax (number a)) : State (Exact K) V)
      ⟨0, f0, m⟩ ⟨0, f0, m⟩ t := by
  obtain ⟨t, ht, hlt, hth, -, hbeyond⟩ := exists_clamp hs.low_lt a
  have hpos : 0 < t := by
    refine hbeyond 0 ha (lt_of_le_of_lt ?_ hs.low_lt)
    exact number_le.mpr hs.low_nonneg
  have hsteep : m < c1 * m := by
    have := mul_lt_mul_of_neg_right (hs.c1_lt.trans hs.c2_lt) hm
    linarith
  rw [hs.low_eq, ht]
  have hnone : Agrees (none : Option (Exact K × Iterate (Exact K) V)) (⟨0, f0, m⟩ : End K) :=
    ⟨by simp, nofun⟩
  refine ⟨t, rfl, rfl, rfl, .initial hsteep, .inl rfl, .inl rfl, hnone,
    fun _ => ⟨hpos, hlt, hth, 0, t + 4.0 * t, rfl, ?_, ?_⟩, nofun⟩
  · simp [MoreThuente.initial, extrapolateUpper]
  · have : 0 < 4.0 * t := mul_pos (by norm_num) hpos
    linarith

section Settle
variable (hs : Accepted s c1 c2 low) {u : Update (Exact K)}
include hs

/-- Without a bracketed interval the next trial lies beyond the one that became the best end. -/
theorem exists_ahead_settle (hb : u.bracketed = false) (hbest : u.best = p.exact) {z : K}
    (hz : u.next = number z) (hpz : p.step < z) (hlow : low ≤ p.step)
    (hhigh : number p.step < s.alphaMax) :
    ∃ t, (s.settle st u).trial = number t ∧ Ahead s low (s.settle st u) p t := by
  obtain ⟨t, ht, hlt, hth, htz, hbeyond⟩ := exists_clamp hs.low_lt z
  have hsettle : s.settle st u =
      { st with
        best := u.best
        other := u.other
        bracketed := u.bracketed
        trial := number t
        low := number (z + 1.1 * (z - p.step))
        high := number (z + 4.0 * (z - p.step)) } := by
    simp only [settle, hb, if_neg Bool.false_ne_true, hz, hbest, hs.low_eq, ht, End.exact_step,
      extrapolateLower, extrapolateUpper, ofScientific_eq, number_sub, number_mul, number_add]
  rw [hsettle]
  rw [max_eq_left (hlow.trans hpz.le)] at htz
  refine ⟨t, rfl, hbeyond _ hpz hhigh, hlt, hth, _, _, rfl, rfl, ?_⟩
  have : 0 < 4.0 * (z - p.step) := mul_pos (by norm_num) (sub_pos.mpr hpz)
  linarith

theorem exists_framed_settle (hb : u.bracketed = true) (hbest : u.best = x.exact)
    (hother : u.other = y.exact) (hu : Scalar.isFinite u.next = true) :
    ∃ t, (s.settle st u).trial = number t ∧ Framed (s.settle st u) x y t := by
  have hx : u.best.step = number x.step := by rw [hbest, End.exact_step]
  have hy : u.other.step = number y.step := by rw [hother, End.exact_step]
  have hfit : Fitted (s.settle st u) x.step y.step := fitted_settle hb hx hy
  have hcases : (s.settle st u).trial = number x.step ∨ _ := hs.trial_settle_cases hb hx hy hu
  obtain ht | ⟨t, -, ht, hbetween⟩ := hcases
  · exact ⟨x.step, ht, .inr rfl, hfit.low_eq, hfit.high_eq⟩
  · exact ⟨t, ht, .inl hbetween, hfit.low_eq, hfit.high_eq⟩

end Settle

section Round
variable {tested : End K → Prop}

/-- What a round must show to keep the invariant. -/
theorem Invariant.of_settle {u : Update (Exact K)} (hbest : u.best = x.exact)
    (hother : u.other = y.exact) (hinterval : Interval f0 (c1 * m) x y u.bracketed st.firstStage)
    (hx : x = ⟨0, f0, m⟩ ∨ 0 < x.step ∧ tested x) (hy : y = ⟨0, f0, m⟩ ∨ 0 < y.step ∧ tested y)
    (hagrees : Agrees st.candidate x) (ht : (s.settle st u).trial = number t)
    (hahead : u.bracketed = false → Ahead s low (s.settle st u) x t)
    (hframed : u.bracketed = true → Framed (s.settle st u) x y t) :
    Invariant s c1 low f0 m tested (s.settle st u) x y t where
  best_eq := by rw [settle_best, hbest]
  other_eq := by rw [settle_other, hother]
  trial_eq := ht
  interval := by rwa [settle_bracketed, settle_firstStage]
  best_tested := hx
  other_tested := hy
  agrees := by rwa [settle_candidate]
  ahead hb := hahead (by rwa [settle_bracketed] at hb)
  framed hb := hframed (by rwa [settle_bracketed] at hb)

theorem Invariant.inside (hs : Accepted s c1 c2 low)
    (h : Invariant s c1 low f0 m tested st x y p.step)
    (hstop : s.earlyStop (number f0) (number m) st p.exact = none) :
    Inside x y st.bracketed p.step := by
  refine ⟨fun hb => ?_, fun hb => (h.ahead hb).right⟩
  have hframed := h.framed hb
  obtain ⟨hlow, hhigh⟩ :=
    (hs.earlyStop_eq_none hstop).1 hb _ _ hframed.low_eq hframed.high_eq
  exact between_of_min_max hlow hhigh

/-- Without a bracketed interval a trial that becomes the best end is short of the upper bound, and
the step after it lies beyond it. -/
theorem Invariant.exists_next (hs : Accepted s c1 c2 low) (hg : c1 * m < 0)
    (h : Invariant s c1 low f0 m tested st x y p.step) (hb : st.bracketed = false)
    (hstop : s.earlyStop (number f0) (number m) st p.exact = none) (hle : p.value ≤ x.value)
    (hex : p.excess f0 (c1 * m) ≤ 0) (hsteep : p.slope < c1 * m ∨ 0 < p.slope)
    (hsame : ¬ p.slope * x.slope < 0) :
    number p.step < s.alphaMax ∧ ∃ z, p.step < z ∧
      trialStep x.exact y.exact p.exact st.bracketed st.low st.high = number z := by
  obtain ⟨hright, -, hhigh, a, b, ha, hb', hbound⟩ := h.ahead hb
  have hx : x.slope < 0 := (h.interval.steep (h.interval.unbracketed hb)).trans hg
  have hp : p.slope < c1 * m := hsteep.resolve_right fun hup =>
    hsame (mul_neg_of_pos_of_neg hup hx)
  constructor
  · refine lt_of_le_of_beq_eq_false hhigh (Bool.eq_false_iff.mpr fun hmax => ?_)
    exact ((hs.earlyStop_eq_none hstop).2 hmax hex).not_gt hp
  · obtain ⟨z, hz, hpz⟩ : ∃ z, trialStep x.exact y.exact p.exact false (number a) (number b) =
        number z ∧ p.step < z := exists_trialStep hright hx (hp.trans hg) hle hbound
    exact ⟨z, hpz, by rw [hb, ha, hb', hz]⟩

variable {z : Iterate (Exact K) V}

/-- However a rejected trial changes the ends, the invariant holds of the state after it, and the
trial joins those that were made. -/
theorem Invariant.exists_settle (hs : Accepted s c1 c2 low) (hm : m < 0)
    (h : Invariant s c1 low f0 m tested st x y p.step) (hf : z.value = number p.value)
    (hreject : Rejected f0 (c1 * m) (-c2 * m) p)
    (hstop : s.earlyStop (number f0) (number m) st p.exact = none) {u : Update (Exact K)}
    (hmove : Move f0 (c1 * m) (goesOn f0 (c1 * m) st.firstStage p) st.bracketed st.low st.high
      x y p u) (hfin : Scalar.isFinite u.next = true) :
    ∃ x' y' t', Invariant s c1 low f0 m (fun e => tested e ∨ e = p) (s.settle { st with
      firstStage := goesOn f0 (c1 * m) st.firstStage p
      candidate := s.better (number f0) (number m) st.candidate (number p.step) z
      trials := st.trials + 1 } u) x' y' t' := by
  have hg : c1 * m < 0 := mul_neg_of_pos_of_neg hs.c1_pos hm
  have hgk : -(c1 * m) < -c2 * m := by
    have := mul_lt_mul_of_neg_right hs.c1_lt hm
    linarith
  have hin := h.inside hs hstop
  have hpos := h.interval.pos_of_inside hin
  have hnew : p = ⟨0, f0, m⟩ ∨ 0 < p.step ∧ (tested p ∨ p = p) := .inr ⟨hpos, .inr rfl⟩
  have hold : ∀ e, (e = ⟨0, f0, m⟩ ∨ 0 < e.step ∧ tested e) →
      e = ⟨0, f0, m⟩ ∨ 0 < e.step ∧ (tested e ∨ e = p) :=
    fun e he => he.imp_right fun he => ⟨he.1, .inl he.2⟩
  cases hmove with
  | rise next hrise =>
    have hx : x.step = 0 → x.value = f0 := by
      intro hx
      obtain rfl | ⟨hpos, -⟩ := h.best_tested
      · rfl
      · exact absurd hx hpos.ne'
    obtain ⟨t', ht', hframed⟩ := exists_framed_settle hs rfl rfl rfl hfin
    refine ⟨x, p, t', .of_settle rfl rfl ?_ (hold x h.best_tested) hnew ?_ ht' nofun
      fun _ => hframed⟩
    · exact h.interval.rise hin hg hrise
    · have hbetter := hs.better_of_rise (m := m) hf h.agrees hx (hrise.imp_right And.right)
      simp only [hbetter]
      exact h.agrees
  | across next hle hline hopp =>
    have hex := h.interval.excess_nonpos hin hg hle hline
    obtain ⟨t', ht', hframed⟩ := exists_framed_settle hs rfl rfl rfl hfin
    refine ⟨p, x, t', .of_settle rfl rfl ?_ hnew (hold x h.best_tested) ?_ ht' nofun
      fun _ => hframed⟩
    · exact h.interval.across hin hg hle hex hopp
    · exact hs.agrees_better hf h.agrees hpos (Interval.lt_of_excess hg hpos hex) hex hle
  | onward hle hline hsame =>
    have hex := h.interval.excess_nonpos hin hg hle hline
    have hsteep := h.interval.steep_of_rejected hin hg hgk hreject hex
    have hinterval := h.interval.onward hin hg hle hex hsteep hsame
    have hagrees := hs.agrees_better hf h.agrees hpos (Interval.lt_of_excess hg hpos hex) hex hle
    rcases Bool.eq_false_or_eq_true st.bracketed with hb | hb
    · obtain ⟨t', ht', hframed⟩ := exists_framed_settle hs hb rfl rfl hfin
      refine ⟨p, y, t', .of_settle rfl rfl hinterval hnew (hold y h.other_tested) hagrees ht'
        (fun hb' => ?_) fun _ => hframed⟩
      exact absurd (hb'.symm.trans hb) Bool.false_ne_true
    · obtain ⟨hhigh, w, hpw, hw⟩ := h.exists_next hs hg hb hstop hle hex hsteep hsame
      obtain ⟨t', ht', hahead⟩ := exists_ahead_settle hs
        (u := ⟨p.exact, y.exact, _, st.bracketed⟩) hb rfl hw hpw (h.ahead hb).low_le hhigh
      refine ⟨p, y, t', .of_settle rfl rfl hinterval hnew (hold y h.other_tested) hagrees ht'
        (fun _ => hahead) fun hb' => ?_⟩
      exact absurd (hb.symm.trans hb') Bool.false_ne_true

variable [Space (Exact K) V] {r : Ray (Exact K) V}

theorem outlasts_eq (hs : Accepted s c1 c2 low) (hf0 : r.start.value = number f0)
    (htried : tried r st z = p.exact) :
    outlasts s r (number m) st z = goesOn f0 (c1 * m) st.firstStage p := by
  simp [outlasts, htried, hf0, hs.c1_eq, goesOn, End.excess_nonpos_iff]

/-- A round that goes on keeps the invariant, and the trial joins those that were made. -/
theorem Invariant.judge (hs : Accepted s c1 c2 low) (hm : m < 0)
    (h : Invariant s c1 low f0 m tested st x y p.step) (hf0 : r.start.value = number f0)
    (hf : z.value = number p.value) (hd : Space.inner z.gradient r.direction = number p.slope)
    {st' : State (Exact K) V} (hj : s.judge r (number m) st z = .inl st') :
    ∃ x' y' t', Invariant s c1 low f0 m (fun e => tested e ∨ e = p) st' x' y' t' := by
  have htried : tried r st z = p.exact := by rw [tried, h.trial_eq, hf, hd]; rfl
  have hgoes := outlasts_eq hs hf0 htried (m := m)
  obtain ⟨hreject, hstop, hfin, rfl⟩ := judge_eq_inl s r (number m) st z hj
  rw [htried, hf0] at hreject hstop
  rw [hs.acceptable_eq_false_iff] at hreject
  rw [updateAfter, hgoes, htried, hf0] at hfin
  rw [after, updateAfter, hgoes, htried, hf0, candidateAfter, h.trial_eq, hf0]
  have hmove := hs.move_update (p := p) h.best_eq h.other_eq h.interval.best_excess
    (goesOn f0 (c1 * m) st.firstStage p)
  exact h.exists_settle hs hm hf hreject hstop hmove hfin

end Round

end Downhill.MoreThuente
