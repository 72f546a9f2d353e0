import Downhill.Proofs.LineSearch.Contract

/-! What a trial of the bracketing search can lead to: the search accepts it, or stops early, or
goes on from an interval whose ends are among the old ones and the trial. -/
namespace Downhill.MoreThuente
variable {α V : Type} [Scalar α]

theorem check_eq_ok {s : MoreThuente α} (h : s.check = .ok ()) :
    ((0 < s.c1 ∧ s.c1 < 1) ∧ s.c1 < s.c2 ∧ s.c2 < 1) ∧
      0 ≤ s.alphaMin ∧ s.alphaMin < s.alphaMax := by
  obtain ⟨_, hc, h⟩ := bind_eq_ok_iff.mp h
  refine ⟨checkWolfe_eq_ok_iff.mp hc, ?_⟩
  dsimp only at h
  by_cases hx : s.xtol < 0
  · rw [if_pos hx] at h
    cases h
  · by_contra hn
    rw [if_neg hx, if_neg hn] at h
    cases h

/-- After a trial the ends of the interval are the best end and the trial, the trial and the former
best end, or the trial and the other end. -/
theorem safeguardedStep_cases (x y p : End α) (bracketed : Bool) (low high : α) :
    (x.value < p.value ∧ safeguardedStep x y p bracketed low high =
      ⟨x, p, trialStep x y p bracketed low high, true⟩) ∨
    (¬ x.value < p.value ∧ opposite p.slope x.slope = true ∧
      safeguardedStep x y p bracketed low high =
        ⟨p, x, trialStep x y p bracketed low high, true⟩) ∨
    (¬ x.value < p.value ∧ opposite p.slope x.slope = false ∧
      safeguardedStep x y p bracketed low high =
        ⟨p, y, trialStep x y p bracketed low high, bracketed⟩) := by
  unfold safeguardedStep
  by_cases hrise : x.value < p.value
  · exact .inl ⟨hrise, if_pos hrise⟩
  · by_cases hopp : opposite p.slope x.slope = true
    · exact .inr (.inl ⟨hrise, hopp, by simp only [if_neg hrise, if_pos hopp]⟩)
    · exact .inr (.inr ⟨hrise, by simpa using hopp, by simp only [if_neg hrise, if_neg hopp]⟩)

/-- What holds of the ends and of the trial holds of the new ends. -/
theorem safeguardedStep_ends {P : End α → Prop} {x y p : End α} (hx : P x) (hy : P y) (hp : P p)
    (bracketed : Bool) (low high : α) : P (safeguardedStep x y p bracketed low high).best ∧
      P (safeguardedStep x y p bracketed low high).other := by
  obtain ⟨-, h⟩ | ⟨-, -, h⟩ | ⟨-, -, h⟩ := safeguardedStep_cases x y p bracketed low high <;> rw [h]
  exacts [⟨hx, hp⟩, ⟨hp, hx⟩, ⟨hp, hy⟩]

/-- How the ends moved from `x` and `y` to those of `u`, with a trial at `t`. -/
def Update.MovesEnds (u : Update α) (x y t : α) (bracketed : Bool) : Prop :=
  u.best.step = x ∧ u.other.step = t ∧ u.bracketed = true ∨
  u.best.step = t ∧ u.other.step = x ∧ u.bracketed = true ∨
  u.best.step = t ∧ u.other.step = y ∧ u.bracketed = bracketed

theorem safeguardedStep_movesEnds (x y p : End α) (bracketed : Bool) (low high : α) :
    (safeguardedStep x y p bracketed low high).MovesEnds x.step y.step p.step bracketed := by
  obtain ⟨-, h⟩ | ⟨-, -, h⟩ | ⟨-, -, h⟩ := safeguardedStep_cases x y p bracketed low high <;> rw [h]
  · exact .inl ⟨rfl, rfl, rfl⟩
  · exact .inr (.inl ⟨rfl, rfl, rfl⟩)
  · exact .inr (.inr ⟨rfl, rfl, rfl⟩)

/-- Whatever function was interpolated, the ends move in one of the three ways. -/
theorem update_movesEnds (s : MoreThuente α) (f0 slope : α) (st : State α V) (firstStage : Bool)
    (t : End α) : (s.update f0 slope st firstStage t).MovesEnds st.best.step st.other.step t.step
      st.bracketed := by
  simp only [update]
  split_ifs
  · exact safeguardedStep_movesEnds (st.best.lowered _) (st.other.lowered _) (t.lowered _) _ _ _
  · exact safeguardedStep_movesEnds _ _ _ _ _ _

/-- Both ends after a trial stand where an end or the trial stood. -/
theorem update_steps (s : MoreThuente α) (f0 slope : α) (st : State α V)
    (firstStage : Bool) (t : End α) {P : α → Prop} (hx : P st.best.step) (hy : P st.other.step)
    (ht : P t.step) : P (s.update f0 slope st firstStage t).best.step ∧
      P (s.update f0 slope st firstStage t).other.step := by
  obtain ⟨hx', hy', -⟩ | ⟨hx', hy', -⟩ | ⟨hx', hy', -⟩ :=
    update_movesEnds s f0 slope st firstStage t <;> rw [hx', hy']
  exacts [⟨hx, ht⟩, ⟨ht, hx⟩, ⟨ht, hy⟩]

section Settle
variable (s : MoreThuente α) (st : State α V) (u : Update α)

@[simp] theorem settle_best : (s.settle st u).best = u.best := by
  simp only [settle]
  split_ifs <;> rfl

@[simp] theorem settle_other : (s.settle st u).other = u.other := by
  simp only [settle]
  split_ifs <;> rfl

@[simp] theorem settle_bracketed : (s.settle st u).bracketed = u.bracketed := by
  simp only [settle]
  split_ifs <;> rfl

@[simp] theorem settle_firstStage : (s.settle st u).firstStage = st.firstStage := by
  simp only [settle]
  split_ifs <;> rfl

@[simp] theorem settle_candidate : (s.settle st u).candidate = st.candidate := by
  simp only [settle]
  split_ifs <;> rfl

@[simp] theorem settle_trials : (s.settle st u).trials = st.trials := by
  simp only [settle]
  split_ifs <;> rfl

/-- The step that is proposed after a trial, before it is kept within the bounds of the search. -/
def proposal : α :=
  if u.bracketed &&
      bisectRatio * st.previousWidth ≤ Scalar.abs (u.other.step - u.best.step) then
    u.best.step + 0.5 * (u.other.step - u.best.step)
  else u.next

theorem settle_of_unbracketed (hb : u.bracketed = false) : s.settle st u = { st with
    best := u.best
    other := u.other
    bracketed := false
    trial := Scalar.clamp s.alphaMin s.alphaMax (proposal st u)
    low := u.next + extrapolateLower * (u.next - u.best.step)
    high := u.next + extrapolateUpper * (u.next - u.best.step) } := by
  simp [settle, proposal, hb]

/-- In a bracketed interval a proposal that leaves the interval gives way to the best end. -/
theorem settle_of_bracketed (hb : u.bracketed = true) : s.settle st u =
    let low := Scalar.smaller u.best.step u.other.step
    let high := Scalar.larger u.best.step u.other.step
    let next := Scalar.clamp s.alphaMin s.alphaMax (proposal st u)
    { st with
      best := u.best
      other := u.other
      bracketed := true
      trial := if next ≤ low || high ≤ next || high - low ≤ s.xtol * high then u.best.step else next
      low
      high
      width := Scalar.abs (u.other.step - u.best.step)
      previousWidth := st.width } := by
  simp [settle, proposal, hb]

end Settle

variable [Space α V] (s : MoreThuente α) (r : Ray α V) (slope : α) (st : State α V)
  (y : Iterate α V)

/-- A trial as an end of an interval. -/
def tried : End α := ⟨st.trial, y.value, Space.inner y.gradient r.direction⟩

/-- The first stage outlasts a trial unless the trial lies below the line with a slope that is not
negative. -/
def outlasts : Bool :=
  let t := tried r st y
  st.firstStage && !(t.value ≤ r.start.value + t.step * (s.c1 * slope) && 0 ≤ t.slope)

/-- The best step after a trial. -/
def candidateAfter : Option (α × Iterate α V) :=
  s.better r.start.value slope st.candidate st.trial y

/-- The interval after a trial. -/
def updateAfter : Update α :=
  s.update r.start.value slope st (outlasts s r slope st y) (tried r st y)

theorem updateAfter_movesEnds : (updateAfter s r slope st y).MovesEnds st.best.step st.other.step
    st.trial st.bracketed :=
  update_movesEnds _ _ _ _ _ _

/-- The state after a trial from which the search goes on. -/
def after : State α V :=
  s.settle { st with
    firstStage := outlasts s r slope st y
    candidate := candidateAfter s r slope st y
    trials := st.trials + 1 } (updateAfter s r slope st y)

theorem judge_eq_accepted (hacc : s.acceptable r.start.value slope (tried r st y) = true) :
    s.judge r slope st y =
      .inr (.accepted st.trial y (st.trials + 1) (st.trials + 1) .strongWolfe) := if_pos hacc

omit [Space α V] in
/-- A search that does not stop early has tried a step strictly between the bounds of a bracketed
interval. -/
theorem inside_of_earlyStop {f0 : α} {t : End α} (h : s.earlyStop f0 slope st t = none)
    (hb : st.bracketed = true) : ¬ t.step ≤ st.low ∧ ¬ st.high ≤ t.step := by
  simp only [earlyStop] at h
  split_ifs at h with hround
  simpa [hb] using hround

/-- A search stops early at a trial that it does not accept. -/
theorem judge_eq_stopped {cause : EarlyStop}
    (hacc : s.acceptable r.start.value slope (tried r st y) = false)
    (hstop : s.earlyStop r.start.value slope st (tried r st y) = some cause) :
    s.judge r slope st y =
      .inr (conclude r (candidateAfter s r slope st y) (st.trials + 1) cause) := by
  have hjudge : s.judge r slope st y = _ := if_neg (Bool.eq_false_iff.mp hacc)
  simp only [tried] at hstop
  simp only [hstop] at hjudge
  exact hjudge

/-- A search that neither accepts the trial nor stops goes on. -/
theorem judge_eq_after (hacc : s.acceptable r.start.value slope (tried r st y) = false)
    (hstop : s.earlyStop r.start.value slope st (tried r st y) = none)
    (hfin : Scalar.isFinite (updateAfter s r slope st y).next = true) :
    s.judge r slope st y = .inl (after s r slope st y) := by
  have hjudge : s.judge r slope st y = _ := if_neg (Bool.eq_false_iff.mp hacc)
  simp only [tried] at hstop
  simp only [hstop] at hjudge
  exact hjudge.trans (if_pos hfin)

/-- A search cannot go on from a step that is no number. -/
theorem judge_eq_unusable (hacc : s.acceptable r.start.value slope (tried r st y) = false)
    (hstop : s.earlyStop r.start.value slope st (tried r st y) = none)
    (hfin : ¬ Scalar.isFinite (updateAfter s r slope st y).next = true) :
    s.judge r slope st y =
      .inr (conclude r (candidateAfter s r slope st y) (st.trials + 1) .unusableStep) := by
  have hjudge : s.judge r slope st y = _ := if_neg (Bool.eq_false_iff.mp hacc)
  simp only [tried] at hstop
  simp only [hstop] at hjudge
  exact hjudge.trans (if_neg hfin)

theorem judge_cases :
    (s.acceptable r.start.value slope (tried r st y) = true ∧ s.judge r slope st y =
      .inr (.accepted st.trial y (st.trials + 1) (st.trials + 1) .strongWolfe)) ∨
    (∃ cause, s.judge r slope st y =
      .inr (conclude r (candidateAfter s r slope st y) (st.trials + 1) cause)) ∨
    (s.acceptable r.start.value slope (tried r st y) = false ∧
      s.earlyStop r.start.value slope st (tried r st y) = none ∧
      Scalar.isFinite (updateAfter s r slope st y).next = true ∧
      s.judge r slope st y = .inl (after s r slope st y)) := by
  cases hacc : s.acceptable r.start.value slope (tried r st y) with
  | true => exact .inl ⟨rfl, judge_eq_accepted s r slope st y hacc⟩
  | false =>
    cases hstop : s.earlyStop r.start.value slope st (tried r st y) with
    | some cause => exact .inr (.inl ⟨cause, judge_eq_stopped s r slope st y hacc hstop⟩)
    | none =>
      by_cases hfin : Scalar.isFinite (updateAfter s r slope st y).next = true
      · exact .inr (.inr ⟨rfl, rfl, hfin, judge_eq_after s r slope st y hacc hstop hfin⟩)
      · exact .inr (.inl ⟨_, judge_eq_unusable s r slope st y hacc hstop hfin⟩)

theorem judge_eq_inl {st' : State α V} (h : s.judge r slope st y = .inl st') :
    s.acceptable r.start.value slope (tried r st y) = false ∧
      s.earlyStop r.start.value slope st (tried r st y) = none ∧
      Scalar.isFinite (updateAfter s r slope st y).next = true ∧ st' = after s r slope st y := by
  obtain ⟨-, hj⟩ | ⟨cause, hj⟩ | ⟨hacc, hstop, hfin, hj⟩ := judge_cases s r slope st y <;>
    rw [hj] at h <;> cases h
  exact ⟨hacc, hstop, hfin, rfl⟩

end Downhill.MoreThuente
