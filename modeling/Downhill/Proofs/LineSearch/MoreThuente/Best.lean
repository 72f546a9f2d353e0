import Downhill.Proofs.LineSearch.MoreThuente.Trace

/-! Which trial the bracketing search returns. It ends at the first trial that meets the strong
Wolfe conditions. If it ends at another one, it hands over the lowest trial with sufficient decrease,
and among equals the first; it fails only if no trial has sufficient decrease. -/
namespace Downhill.MoreThuente

section Lowest
variable {K V : Type} [ExactField K] {P : Exact K × Iterate (Exact K) V → Prop}
  {trials : List (Exact K × Iterate (Exact K) V)} {e b : Exact K × Iterate (Exact K) V}

open Exact

/-- The first of the lowest trials with a property. -/
def FirstLowest (P : Exact K × Iterate (Exact K) V → Prop)
    (trials : List (Exact K × Iterate (Exact K) V)) (e : Exact K × Iterate (Exact K) V) : Prop :=
  ∃ before after, trials = before ++ e :: after ∧ P e ∧
    (∀ a ∈ before, P a → e.2.value < a.2.value) ∧ ∀ a ∈ after, P a → e.2.value ≤ a.2.value

/-- What is kept of the trials: the first of the lowest with the property, if there is one. -/
def Keeps (P : Exact K × Iterate (Exact K) V → Prop)
    (trials : List (Exact K × Iterate (Exact K) V)) :
    Option (Exact K × Iterate (Exact K) V) → Prop
  | none => ∀ a ∈ trials, ¬ P a
  | some e => FirstLowest P trials e

theorem FirstLowest.mem (h : FirstLowest P trials e) : e ∈ trials := by
  obtain ⟨before, after, rfl, -⟩ := h
  simp

theorem FirstLowest.holds (h : FirstLowest P trials e) : P e := by
  obtain ⟨before, after, -, hP, -⟩ := h
  exact hP

/-- A trial that is lower than the lowest one becomes the lowest. -/
theorem FirstLowest.of_lt (h : FirstLowest P trials b) (hP : P e)
    (hlt : e.2.value < b.2.value) : FirstLowest P (trials ++ [e]) e := by
  obtain ⟨before, after, rfl, -, hbefore, hafter⟩ := h
  refine ⟨before ++ b :: after, [], rfl, hP, fun a ha hPa => ?_, by simp⟩
  rcases List.mem_append.mp ha with ha | ha
  · exact Exact.lt_trans hlt (hbefore a ha hPa)
  · rcases List.mem_cons.mp ha with rfl | ha
    · exact hlt
    · exact lt_of_lt_of_le hlt (hafter a ha hPa)

/-- A trial that is no lower than the lowest one changes nothing. -/
theorem FirstLowest.append (h : FirstLowest P trials b) (hle : P e → b.2.value ≤ e.2.value) :
    FirstLowest P (trials ++ [e]) b := by
  obtain ⟨before, after, rfl, hb, hbefore, hafter⟩ := h
  refine ⟨before, after ++ [e], by simp, hb, hbefore, fun a ha hPa => ?_⟩
  rcases List.mem_append.mp ha with ha | ha
  · exact hafter a ha hPa
  · rw [List.mem_singleton.mp ha] at hPa ⊢
    exact hle hPa

theorem FirstLowest.first (h : ∀ a ∈ trials, ¬ P a) (hP : P e) :
    FirstLowest P (trials ++ [e]) e :=
  ⟨trials, [], rfl, hP, fun a ha hPa => absurd hPa (h a ha), by simp⟩

/-- Something is kept just in case a trial has the property. -/
theorem Keeps.isSome_iff {c : Option (Exact K × Iterate (Exact K) V)} (h : Keeps P trials c) :
    c.isSome = true ↔ ∃ a ∈ trials, P a := by
  cases c with
  | none =>
    have hnone : ¬ ∃ a ∈ trials, P a := fun ⟨a, ha, hPa⟩ => h a ha hPa
    simp [hnone]
  | some e =>
    have hsome : ∃ a ∈ trials, P a := ⟨e, FirstLowest.mem h, FirstLowest.holds h⟩
    simpa using hsome

end Lowest

variable {K V M : Type} [ExactField K] [Space (Exact K) V] {s : MoreThuente (Exact K)}
  {o : Oracle (Exact K) V M} {r : Ray (Exact K) V} {slope alpha : Exact K} {c1 c2 low : K}
  {st : State (Exact K) V} {l l₁ l₂ : Ledger (Exact K) V}
  {trials : List (Exact K × Iterate (Exact K) V)} {e : Exact K × Iterate (Exact K) V}

open Exact

/-- The strong Wolfe conditions, with a strict decrease, at a trial. -/
structure Strong (s : MoreThuente (Exact K)) (r : Ray (Exact K) V) (slope : Exact K)
    (e : Exact K × Iterate (Exact K) V) : Prop where
  value_le : e.2.value ≤ r.start.value + s.c1 * e.1 * slope
  value_lt : e.2.value < r.start.value
  flat : Scalar.abs (Space.inner e.2.gradient r.direction) ≤ s.c2 * Scalar.abs slope

/-- Sufficient decrease at a trial. -/
def Decreases (s : MoreThuente (Exact K)) (r : Ray (Exact K) V) (slope : Exact K)
    (e : Exact K × Iterate (Exact K) V) : Prop :=
  e.2.value < r.start.value ∧ e.2.value ≤ r.start.value + s.c1 * e.1 * slope

/-- The trials of a search in their order, each with its step and with the iterate that it led to.
Every round makes one of them, the oracle gives the answers, and nothing else is asked for. -/
structure Evaluated (s : MoreThuente (Exact K)) (o : Oracle (Exact K) V M) (r : Ray (Exact K) V)
    (slope alpha : Exact K) (l l' : Ledger (Exact K) V)
    (trials : List (Exact K × Iterate (Exact K) V)) : Prop where
  step_eq : ∀ k e, trials[k]? = some e →
    ∃ st l₁, Reaches s o.recorded r slope alpha l k st l₁ ∧ st.trial = e.1
  faithful : ∀ e ∈ trials, e.2.point = r.along e.1 ∧ o.Faithful e.2
  requests_eq : l'.requests.toList = l.requests.toList ++
    trials.flatMap fun e => [.value e.2.point, .gradient e.2.point]

theorem Evaluated.nil : Evaluated s o r slope alpha l l [] :=
  ⟨nofun, nofun, by simp⟩

/-- The trial of a round joins those of the rounds before it. -/
theorem Evaluated.append {y : Iterate (Exact K) V} (ho : o.Quiet)
    (h : Evaluated s o r slope alpha l l₁ trials)
    (hst : Reaches s o.recorded r slope alpha l trials.length st l₁)
    (hy : Hears o.recorded r st l₁ y l₂) :
    Evaluated s o r slope alpha l l₂ (trials ++ [(st.trial, y)]) := by
  refine ⟨fun k e hk => ?_, fun e he => ?_, ?_⟩
  · rcases lt_trichotomy k trials.length with hlt | rfl | hlt
    · rw [List.getElem?_append_left hlt] at hk
      exact h.step_eq k e hk
    · rw [List.getElem?_concat_length] at hk
      cases hk
      exact ⟨st, l₁, hst, rfl⟩
    · rw [List.getElem?_eq_none (by simpa using hlt)] at hk
      cases hk
  · rcases List.mem_append.mp he with he | he
    · exact h.faithful e he
    · rw [List.mem_singleton.mp he]
      exact ⟨hy.point_eq, hy.faithful ho⟩
  · rw [hy.requests_eq ho]
    simp [h.requests_eq]

section Tests
variable (hs : Accepted s c1 c2 low) (hneg : slope < 0) (ht : Forward e.1)
include hs hneg

theorem Accepted.line_eq {t : Exact K} (ht : Forward t) :
    t * (s.c1 * slope) = s.c1 * t * slope := by
  obtain ⟨a, ha, rfl⟩ := ht
  rw [hs.c1_eq]
  obtain ⟨m, rfl, -⟩ | rfl := eq_of_neg hneg
  · simp only [number_mul]
    congr 1
    ring
  · rw [number_mul_infinity hs.c1_pos, number_mul]
    rcases ha.eq_or_lt with rfl | ha
    · rw [mul_zero]
    · rw [number_mul_infinity ha, number_mul_infinity (mul_pos hs.c1_pos ha)]

theorem Accepted.flatness_eq : -s.c2 * slope = s.c2 * Scalar.abs slope := by
  have hpos : 0 < c2 := hs.c1_pos.trans hs.c1_lt
  rw [hs.c2_eq]
  obtain ⟨m, rfl, hm⟩ | rfl := eq_of_neg hneg
  · rw [abs_number, abs_of_neg hm, number_neg, number_mul, number_mul, neg_mul, mul_neg]
  · have habs : Scalar.abs (infinity true : Exact K) = infinity false := rfl
    rw [habs, number_mul_infinity hpos]
    change scaled true (-c2) = _
    simp [scaled, hpos, hpos.ne']

/-- The test of the search is that of the strong Wolfe conditions. -/
theorem Accepted.acceptable_iff (ht : Forward e.1) : s.acceptable r.start.value slope
    ⟨e.1, e.2.value, Space.inner e.2.gradient r.direction⟩ = true ↔ Strong s r slope e := by
  simp only [acceptable, Bool.and_eq_true, decide_eq_true_eq, hs.line_eq hneg ht,
    hs.flatness_eq hneg, and_assoc]
  constructor
  · rintro ⟨hle, hlt, hflat⟩
    exact ⟨hle, hlt, hflat⟩
  · intro h
    exact ⟨h.value_le, h.value_lt, h.flat⟩

end Tests

omit [Space (Exact K) V] in
/-- The candidate after a trial is the first of the lowest again. -/
theorem keeps_better {c : Option (Exact K × Iterate (Exact K) V)}
    (h : Keeps (Decreases s r slope) trials c)
    (hfinite : ∀ a ∈ trials, Scalar.isFinite a.2.value = true)
    (he : Scalar.isFinite e.2.value = true) :
    Keeps (Decreases s r slope) (trials ++ [e])
      (s.better r.start.value slope c e.1 e.2) := by
  have hdecrease : sufficientDecrease e.2.value r.start.value e.1 slope s.c1 = true ↔
      Decreases s r slope e := sufficientDecrease_iff
  cases c with
  | none =>
    by_cases hP : Decreases s r slope e
    · rw [better, if_pos (by simpa using hdecrease.mpr hP)]
      exact FirstLowest.first h hP
    · rw [better, if_neg (by simpa using mt hdecrease.mp hP)]
      intro a ha
      rcases List.mem_append.mp ha with ha | ha
      · exact h a ha
      · rwa [List.mem_singleton.mp ha]
  | some b =>
    have hb : FirstLowest (Decreases s r slope) trials b := h
    by_cases hlower : Decreases s r slope e ∧ e.2.value < b.2.value
    · rw [better, if_pos (by simpa [hdecrease] using hlower)]
      exact hb.of_lt hlower.1 hlower.2
    · rw [better, if_neg (by simpa [hdecrease] using hlower)]
      refine hb.append fun hP => ?_
      obtain ⟨x, hx⟩ := isFinite_iff.mp he
      obtain ⟨z, hz⟩ := isFinite_iff.mp (hfinite b hb.mem)
      rw [hx, hz] at hlower ⊢
      exact number_le.mpr (not_lt.mp fun hlt => hlower ⟨hP, number_lt.mpr hlt⟩)

/-- What is known at the start of a round of the trials before it. -/
structure Course (s : MoreThuente (Exact K)) (o : Oracle (Exact K) V M) (r : Ray (Exact K) V)
    (slope alpha : Exact K) (l : Ledger (Exact K) V) (st : State (Exact K) V)
    (l₁ : Ledger (Exact K) V) (trials : List (Exact K × Iterate (Exact K) V)) : Prop where
  evaluated : Evaluated s o r slope alpha l l₁ trials
  not_strong : ∀ e ∈ trials, ¬ Strong s r slope e
  finite : ∀ e ∈ trials, Scalar.isFinite e.2.value = true
  keeps : Keeps (Decreases s r slope) trials st.candidate

section Round
variable {y : Iterate (Exact K) V}

/-- A trial joins those before it, and the best step after it is the first of the lowest. -/
theorem Course.hears (ho : o.Quiet) (h : Course s o r slope alpha l st l₁ trials)
    (hst : Reaches s o.recorded r slope alpha l trials.length st l₁)
    (hy : Hears o.recorded r st l₁ y l₂) :
    Evaluated s o r slope alpha l l₂ (trials ++ [(st.trial, y)]) ∧
      Keeps (Decreases s r slope) (trials ++ [(st.trial, y)]) (candidateAfter s r slope st y) := by
  refine ⟨h.evaluated.append ho hst hy, ?_⟩
  exact keeps_better (e := (st.trial, y)) h.keeps h.finite hy.value_finite

/-- A round that goes on has made a trial that does not meet the strong Wolfe conditions. -/
theorem Course.judge (hs : Accepted s c1 c2 low) (hneg : slope < 0) (ho : o.Quiet)
    (ht : Forward st.trial) (h : Course s o r slope alpha l st l₁ trials)
    (hst : Reaches s o.recorded r slope alpha l trials.length st l₁)
    (hy : Hears o.recorded r st l₁ y l₂) {st' : State (Exact K) V}
    (hj : s.judge r slope st y = .inl st') :
    Course s o r slope alpha l st' l₂ (trials ++ [(st.trial, y)]) := by
  obtain ⟨hevaluated, hkeeps⟩ := h.hears ho hst hy
  obtain ⟨hacc, -, -, rfl⟩ := judge_eq_inl s r slope st y hj
  have hweak : ¬ Strong s r slope (st.trial, y) := by
    rw [← hs.acceptable_iff hneg (e := (st.trial, y)) ht]
    exact Bool.eq_false_iff.mp hacc
  refine ⟨hevaluated, fun e he => ?_, fun e he => ?_, ?_⟩
  · rcases List.mem_append.mp he with he | he
    · exact h.not_strong e he
    · rwa [List.mem_singleton.mp he]
  · rcases List.mem_append.mp he with he | he
    · exact h.finite e he
    · rw [List.mem_singleton.mp he]
      exact hy.value_finite
  · rwa [after, settle_candidate]

end Round

/-- The trials of the rounds before the one that begins. -/
theorem Reaches.exists_course {k : ℕ} (hs : Accepted s c1 c2 low) (hneg : slope < 0)
    (ha : Scalar.isFinite alpha = true) (ho : o.Quiet)
    (h : Reaches s o.recorded r slope alpha l k st l₁) :
    ∃ trials, trials.length = k ∧ Course s o r slope alpha l st l₁ trials := by
  induction k generalizing st l₁ with
  | zero =>
    obtain ⟨rfl, rfl⟩ := reaches_zero.mp h
    exact ⟨[], rfl, .nil, nofun, nofun, nofun⟩
  | succ k ih =>
    obtain ⟨st₀, l₀, y, hst, hy, hj⟩ := exists_judge_of_reaches_succ h
    obtain ⟨trials, rfl, hcourse⟩ := ih hst
    have ht := (hst.steps hs ha).trial
    exact ⟨_, by simp, hcourse.judge hs hneg ho ht hst hy hj⟩

omit [Space (Exact K) V] in
theorem success_conclude {c : Option (Exact K × Iterate (Exact K) V)} {n : ℕ} {cause : EarlyStop} :
    (conclude r c n cause).success = c.isSome := by
  cases c <;> rfl

/-- The trial that a search returns. -/
structure Returns (s : MoreThuente (Exact K)) (r : Ray (Exact K) V) (slope : Exact K)
    (trials : List (Exact K × Iterate (Exact K) V)) (step : Step (Exact K) V) : Prop where
  /-- A trial with the strong Wolfe conditions is the last one and the first of its kind. -/
  strong : (∃ e ∈ trials, Strong s r slope e) → ∃ before e, trials = before ++ [e] ∧
    Strong s r slope e ∧ (∀ a ∈ before, ¬ Strong s r slope a) ∧
    step = .accepted e.1 e.2 trials.length trials.length .strongWolfe
  success_iff : (∀ e ∈ trials, ¬ Strong s r slope e) →
    (step.success = true ↔ ∃ e ∈ trials, Decreases s r slope e)
  lowest : (∀ e ∈ trials, ¬ Strong s r slope e) → step.success = true →
    FirstLowest (Decreases s r slope) trials (step.alpha, step.reached)

theorem returns_accepted {before : List (Exact K × Iterate (Exact K) V)} {n : ℕ}
    (hn : n = before.length + 1) (he : Strong s r slope e)
    (hbefore : ∀ a ∈ before, ¬ Strong s r slope a) :
    Returns s r slope (before ++ [e]) (.accepted e.1 e.2 n n .strongWolfe) := by
  have hmem : e ∈ before ++ [e] := by simp
  refine ⟨fun _ => ⟨before, e, rfl, he, hbefore, by simp [hn]⟩, fun h => ?_, fun h => ?_⟩
  · exact absurd he (h e hmem)
  · exact absurd he (h e hmem)

theorem returns_conclude {c : Option (Exact K × Iterate (Exact K) V)} {n : ℕ} {cause : EarlyStop}
    (hweak : ∀ a ∈ trials, ¬ Strong s r slope a) (hkeeps : Keeps (Decreases s r slope) trials c) :
    Returns s r slope trials (conclude r c n cause) := by
  refine ⟨fun ⟨e, he, hstrong⟩ => absurd hstrong (hweak e he), fun _ => ?_, fun _ h => ?_⟩
  · rw [success_conclude]
    exact hkeeps.isSome_iff
  · rw [success_conclude] at h
    obtain ⟨e, rfl⟩ := Option.isSome_iff_exists.mp h
    exact hkeeps

/-- What a search returns, whatever it stops at: a trial with the strong Wolfe conditions, or else
the best trial with sufficient decrease. -/
theorem search_returns_best {asked : Option (Exact K)} {step : Step (Exact K) V}
    {l' : Ledger (Exact K) V} (hs : s.check = .ok ()) (ho : o.Quiet)
    (hrun : (s.search o.recorded r asked).perform l = (.ok step, l')) :
    ∃ slope alpha trials, r.prepare s.alpha0 asked = .ok (slope, alpha) ∧
      Evaluated s o r slope alpha l l' trials ∧ trials.length ≤ s.maxEvals.toNat ∧
      Returns s r slope trials step := by
  obtain ⟨c1, c2, low, hacc⟩ := exists_accepted hs
  obtain ⟨slope, alpha, hprepare, hend⟩ := perform_search_eq_ok.mp hrun
  obtain ⟨-, hneg, -, hfin⟩ := Ray.prepare_eq_ok hprepare
  refine ⟨slope, alpha, ?_⟩
  obtain ⟨k, hk, st, l₁, hst, hround⟩ | ⟨st, hst, rfl⟩ := hend
  · obtain ⟨before, rfl, hcourse⟩ := hst.exists_course hacc hneg hfin ho
    obtain ⟨y, hy, hj⟩ := exists_hears hround
    have ht := (hst.steps hacc hfin).trial
    obtain ⟨hevaluated, hkeeps⟩ := hcourse.hears ho hst hy
    refine ⟨before ++ [(st.trial, y)], hprepare, hevaluated, by simpa using hk, ?_⟩
    have htest := hacc.acceptable_iff (r := r) hneg (e := (st.trial, y)) ht
    by_cases hstrong : Strong s r slope (st.trial, y)
    · rw [judge_eq_accepted s r slope st y (htest.mpr hstrong)] at hj
      cases hj
      exact returns_accepted (congrArg Nat.succ hst.trials_eq) hstrong hcourse.not_strong
    · have hweak : ∀ a ∈ before ++ [(st.trial, y)], ¬ Strong s r slope a := by
        intro a ha
        rcases List.mem_append.mp ha with ha | ha
        · exact hcourse.not_strong a ha
        · rwa [List.mem_singleton.mp ha]
      obtain ⟨hacc', -⟩ | ⟨cause, hj'⟩ | ⟨-, -, -, hj'⟩ := judge_cases s r slope st y
      · exact absurd (htest.mp hacc') hstrong
      · rw [hj'] at hj
        cases hj
        exact returns_conclude hweak hkeeps
      · rw [hj'] at hj
        cases hj
  · obtain ⟨trials, hlength, hcourse⟩ := hst.exists_course hacc hneg hfin ho
    exact ⟨trials, hprepare, hcourse.evaluated, hlength.le,
      returns_conclude hcourse.not_strong hcourse.keeps⟩

/-- A value that falls until `3`, jumps there and falls on slowly: the second trial has sufficient
decrease, but the first one was lower and is returned at the cap. -/
theorem search_returns_best_ledge :
    let p : Problem (Exact ℚ) (Vector (Exact ℚ) 1) (Matrix (Exact ℚ) 1) :=
      ⟨"ledge", none, fun v => .ok (if first v < 3.0 then -first v else -0.1 * first v),
        some fun v => .ok #v[if first v < 3.0 then -1 else -0.1], none, gradientTest⟩
    let s : MoreThuente (Exact ℚ) := { MoreThuente.standard 0.05 with maxEvals := 2 }
    let r : Ray (Exact ℚ) (Vector (Exact ℚ) 1) := ⟨⟨#v[0], 0, #v[-1]⟩, #v[1]⟩
    let step : Step (Exact ℚ) (Vector (Exact ℚ) 1) :=
      .accepted 1 ⟨#v[1], -1, #v[-1]⟩ 2 2 (.stoppedWithBest (.evaluations 2))
    ∃ l trials, (s.search p.oracle.recorded r none).perform {} = (.ok step, l) ∧
      Evaluated s p.oracle r (-1) 1 {} l trials ∧ l.valuePoints = [#v[1], #v[5]] ∧
      FirstLowest (Decreases s r (-1)) trials (1, ⟨#v[1], -1, #v[-1]⟩) := by
  intro p s r step
  have hcheck : s.check = .ok () := by decide +kernel
  have hrun : ((s.search p.oracle.recorded r none).perform {}).1 = .ok step := by
    decide +kernel
  have hpoints : ((s.search p.oracle.recorded r none).perform {}).2.valuePoints =
      [#v[1], #v[5]] := by decide +kernel
  have hprepare : r.prepare s.alpha0 none = .ok (-1, 1) := by decide +kernel
  obtain ⟨slope, alpha, trials, hprepare', hevaluated, -, hreturns⟩ :=
    search_returns_best hcheck p.quiet_oracle (Prod.ext hrun rfl)
  cases hprepare.symm.trans hprepare'
  have hweak : ∀ e ∈ trials, ¬ Strong s r (-1) e := by
    intro e he hstrong
    obtain ⟨before, b, -, -, -, hstep⟩ := hreturns.strong ⟨e, he, hstrong⟩
    cases congrArg Step.message hstep
  exact ⟨_, trials, Prod.ext hrun rfl, hevaluated, hpoints, hreturns.lowest hweak rfl⟩

end Downhill.MoreThuente
