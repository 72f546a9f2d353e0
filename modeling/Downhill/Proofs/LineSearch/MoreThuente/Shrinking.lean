import Downhill.Proofs.LineSearch.MoreThuente.Rounds

/-! The bracketed interval shrinks. Each trial that moves the ends lies strictly inside the interval
and becomes one of its ends; an interval that has kept two thirds of the width that it had two
updates before is halved by the next trial. So three updates take away more than a third of the
width, whatever the values and the slopes are. -/
namespace Downhill.MoreThuente

section Updates
variable {α V M : Type} [Scalar α] [Space α V] {s : MoreThuente α} {o : Oracle α V M} {r : Ray α V}
  {slope alpha : α} {l l' : Ledger α V} {k : ℕ} {st st' : State α V} {y : Iterate α V}

/-- Round `k` begins in `st`, hears of `y` and moves the ends of the interval: the trial is not
accepted, and nothing stops the search before. -/
structure Updates (s : MoreThuente α) (o : Oracle α V M) (r : Ray α V) (slope alpha : α)
    (l : Ledger α V) (k : ℕ) (st : State α V) (y : Iterate α V) : Prop where
  heard : ∃ l₁ l₂, Reaches s o r slope alpha l k st l₁ ∧ Hears o r st l₁ y l₂
  rejected : s.acceptable r.start.value slope (tried r st y) = false
  unstopped : s.earlyStop r.start.value slope st (tried r st y) = none

/-- A round that begins in `st'` follows an update that proposed a number. -/
theorem exists_updates (h : Reaches s o r slope alpha l (k + 1) st' l') :
    ∃ st y, Updates s o r slope alpha l k st y ∧
      Scalar.isFinite (updateAfter s r slope st y).next = true ∧ st' = after s r slope st y := by
  obtain ⟨st, l₁, y, hst, hy, hj⟩ := exists_judge_of_reaches_succ h
  obtain ⟨hacc, hstop, hfin, rfl⟩ := judge_eq_inl s r slope st y hj
  exact ⟨st, y, ⟨⟨l₁, l', hst, hy⟩, hacc, hstop⟩, hfin, rfl⟩

/-- The round after an update begins with the ends that it left. -/
theorem Updates.next (h : Updates s o r slope alpha l k st y)
    (h' : Reaches s o r slope alpha l (k + 1) st' l') :
    Scalar.isFinite (updateAfter s r slope st y).next = true ∧ st' = after s r slope st y := by
  obtain ⟨st₀, y₀, h₀, hfin, rfl⟩ := exists_updates h'
  obtain ⟨l₁, l₂, hst, hy⟩ := h.heard
  obtain ⟨l₃, l₄, hst₀, hy₀⟩ := h₀.heard
  obtain ⟨rfl, rfl⟩ := hst.unique hst₀
  obtain rfl := hy.unique hy₀
  exact ⟨hfin, rfl⟩

end Updates

/-- The width of the interval that an update leaves. -/
def Update.width {α : Type} [Scalar α] (u : Update α) : α :=
  Scalar.abs (u.other.step - u.best.step)

/-- The bounds of the search move the step that is proposed after an update. -/
def Moved {α V : Type} [Scalar α] (s : MoreThuente α) (st : State α V) (u : Update α) : Prop :=
  Scalar.clamp s.alphaMin s.alphaMax (proposal st u) ≠ proposal st u

section Cuts
variable {K : Type} [ExactField K] {a b t a' b' : K}

/-- A trial at `t` moves the ends from `a` and `b` to `a'` and `b'`. -/
def Cuts (a b t a' b' : K) : Prop := a' = a ∧ b' = t ∨ a' = t ∧ b' = a ∨ a' = t ∧ b' = b

variable (h : Cuts a b t a' b')
include h

theorem Cuts.within (hin : Between a b t) : min a b ≤ min a' b' ∧ max a' b' ≤ max a b := by
  obtain ⟨hat, htb⟩ | ⟨hbt, hta⟩ := hin
  · rw [min_eq_left (hat.trans htb).le, max_eq_right (hat.trans htb).le]
    obtain ⟨rfl, rfl⟩ | ⟨rfl, rfl⟩ | ⟨rfl, rfl⟩ := h
    · exact ⟨le_min le_rfl hat.le, max_le (hat.trans htb).le htb.le⟩
    · exact ⟨le_min hat.le le_rfl, max_le htb.le (hat.trans htb).le⟩
    · exact ⟨le_min hat.le (hat.trans htb).le, max_le htb.le le_rfl⟩
  · rw [min_eq_right (hbt.trans hta).le, max_eq_left (hbt.trans hta).le]
    obtain ⟨rfl, rfl⟩ | ⟨rfl, rfl⟩ | ⟨rfl, rfl⟩ := h
    · exact ⟨le_min (hbt.trans hta).le hbt.le, max_le le_rfl hta.le⟩
    · exact ⟨le_min hbt.le (hbt.trans hta).le, max_le hta.le le_rfl⟩
    · exact ⟨le_min hbt.le le_rfl, max_le hta.le (hbt.trans hta).le⟩

/-- The interval does not grow. -/
theorem Cuts.width_le (hin : Between a b t) : |b' - a'| ≤ |b - a| := by
  obtain ⟨hmin, hmax⟩ := h.within hin
  rw [← max_sub_min_eq_abs, ← max_sub_min_eq_abs]
  exact sub_le_sub hmax hmin

/-- A trial in the middle halves the interval. -/
theorem Cuts.halves (ht : t = a + 0.5 * (b - a)) : |b' - a'| = 0.5 * |b - a| := by
  have hhalf : 0.5 * |b - a| = |0.5 * (b - a)| := by
    rw [abs_mul, abs_of_pos (show (0 : K) < 0.5 by norm_num)]
  rw [hhalf]
  obtain ⟨ha', hb'⟩ | ⟨ha', hb'⟩ | ⟨ha', hb'⟩ := h <;> rw [ha', hb', ht]
  · congr 1
    ring
  · rw [abs_sub_comm]
    congr 1
    ring
  · congr 1
    ring

end Cuts

variable {K V M : Type} [ExactField K] [Space (Exact K) V] {s : MoreThuente (Exact K)}
  {o : Oracle (Exact K) V M} {r : Ray (Exact K) V} {slope alpha : Exact K} {c1 c2 low : K}
  {st st' : State (Exact K) V} {y : Iterate (Exact K) V} {l l' : Ledger (Exact K) V} {k : ℕ}
  {a b t : K}

open Exact

/-- An update leaves ends at numbers. -/
theorem Updates.exists_ends (hs : Accepted s c1 c2 low) (ha : Scalar.isFinite alpha = true)
    (h : Updates s o r slope alpha l k st y) : ∃ a b,
      (updateAfter s r slope st y).best.step = number a ∧
      (updateAfter s r slope st y).other.step = number b := by
  obtain ⟨l₁, l₂, hst, -⟩ := h.heard
  have hsteps := hst.steps hs ha
  obtain ⟨⟨a, -, hbest⟩, b, -, hother⟩ := update_steps s r.start.value slope st
    (outlasts s r slope st y) (tried r st y) hsteps.best hsteps.other hsteps.trial
  exact ⟨a, b, hbest, hother⟩

/-- An update of a bracketed interval cuts it at a trial strictly inside. -/
theorem Updates.exists_cuts (hs : Accepted s c1 c2 low) (ha : Scalar.isFinite alpha = true)
    (h : Updates s o r slope alpha l k st y) (hb : st.bracketed = true) (hfit : Fitted st a b) :
    ∃ t a' b', st.trial = number t ∧ Between a b t ∧ Cuts a b t a' b' ∧
      (updateAfter s r slope st y).best.step = number a' ∧
      (updateAfter s r slope st y).other.step = number b' ∧
      (updateAfter s r slope st y).bracketed = true := by
  obtain ⟨l₁, l₂, hst, -⟩ := h.heard
  obtain ⟨t, -, ht⟩ := (hst.steps hs ha).trial
  obtain ⟨hlow, hhigh⟩ := inside_of_earlyStop s slope st h.unstopped hb
  have htried : (tried r st y).step = number t := ht
  rw [htried, hfit.low_eq, number_le, not_le] at hlow
  rw [htried, hfit.high_eq, number_le, not_le] at hhigh
  have hbetween := between_of_min_max hlow hhigh
  have hmoves := updateAfter_movesEnds s r slope st y
  rw [ht, hfit.best_eq, hfit.other_eq, hb] at hmoves
  obtain ⟨hx, hy, hb'⟩ | ⟨hx, hy, hb'⟩ | ⟨hx, hy, hb'⟩ := hmoves
  · exact ⟨t, a, t, ht, hbetween, .inl ⟨rfl, rfl⟩, hx, hy, hb'⟩
  · exact ⟨t, t, a, ht, hbetween, .inr (.inl ⟨rfl, rfl⟩), hx, hy, hb'⟩
  · exact ⟨t, t, b, ht, hbetween, .inr (.inr ⟨rfl, rfl⟩), hx, hy, hb'⟩

/-- The state after an update that leaves a bracketed interval. -/
theorem fitted_after (hb : (updateAfter s r slope st y).bracketed = true)
    (hbest : (updateAfter s r slope st y).best.step = number a)
    (hother : (updateAfter s r slope st y).other.step = number b) :
    Fitted (after s r slope st y) a b ∧ (after s r slope st y).previousWidth = st.width := by
  refine ⟨fitted_settle hb hbest hother, ?_⟩
  rw [after, settle_of_bracketed _ _ _ hb]

theorem Reaches.exists_fitted (hs : Accepted s c1 c2 low) (ha : Scalar.isFinite alpha = true)
    (h : Reaches s o r slope alpha l k st l') (hb : st.bracketed = true) : ∃ a b, Fitted st a b := by
  cases k with
  | zero =>
    obtain ⟨rfl, -⟩ := reaches_zero.mp h
    cases hb
  | succ k =>
    obtain ⟨st₀, y, hu, -, rfl⟩ := exists_updates h
    obtain ⟨a, b, hbest, hother⟩ := hu.exists_ends hs ha
    rw [after, settle_bracketed] at hb
    exact ⟨a, b, (fitted_after hb hbest hother).1⟩

/-- The trial after an update that leaves a bracketed interval lies strictly inside or at the best
end. -/
theorem Accepted.trial_after_cases (hs : Accepted s c1 c2 low)
    (hb : (updateAfter s r slope st y).bracketed = true)
    (hbest : (updateAfter s r slope st y).best.step = number a)
    (hother : (updateAfter s r slope st y).other.step = number b)
    (hfin : Scalar.isFinite (updateAfter s r slope st y).next = true) :
    (after s r slope st y).trial = number a ∨
      ∃ t, Scalar.clamp s.alphaMin s.alphaMax (proposal st (updateAfter s r slope st y)) =
        number t ∧ (after s r slope st y).trial = number t ∧ Between a b t :=
  hs.trial_settle_cases hb hbest hother hfin

theorem Between.ne_left {a b t : K} (h : Between a b t) : t ≠ a := by
  obtain ⟨hat, -⟩ | ⟨-, hta⟩ := h
  · exact hat.ne'
  · exact hta.ne

/-- An interval that has kept `0.66` of the width `w` of two updates before is halved by the next
trial, if the bounds of the search do not move it. -/
theorem Updates.width_le_of_previous (hs : Accepted s c1 c2 low)
    (ha : Scalar.isFinite alpha = true) {w : K} (h : Updates s o r slope alpha l k st y)
    (hw : st.previousWidth = number w) (hb : (updateAfter s r slope st y).bracketed = true)
    (hbest : (updateAfter s r slope st y).best.step = number a)
    (hother : (updateAfter s r slope st y).other.step = number b)
    (hle : |b - a| ≤ w) (hunmoved : ¬ Moved s st (updateAfter s r slope st y))
    {y' : Iterate (Exact K) V} (h' : Updates s o r slope alpha l (k + 1) st' y') :
    (updateAfter s r slope st' y').width ≤ bisectRatio * number w := by
  obtain ⟨l₁, l₂, hst', -⟩ := h'.heard
  obtain ⟨hfin, rfl⟩ := h.next hst'
  obtain ⟨hfit, -⟩ := fitted_after hb hbest hother
  have hb' : (after s r slope st y).bracketed = true := by rw [after, settle_bracketed, hb]
  obtain ⟨t, a', b', ht, hbetween, hcuts, hbest', hother', -⟩ := h'.exists_cuts hs ha hb' hfit
  have hwidth : (updateAfter s r slope (after s r slope st y) y').width = number |b' - a'| := by
    rw [Update.width, hbest', hother', number_sub, abs_number]
  rw [hwidth, bisectRatio, ofScientific_eq, number_mul, number_le]
  by_cases hkept : 0.66 * w ≤ |b - a|
  · have hmiddle : proposal st (updateAfter s r slope st y) = number (a + 0.5 * (b - a)) := by
      rw [proposal, hb, hbest, hother, hw]
      simp [bisectRatio, hkept]
    have htrial : t = a + 0.5 * (b - a) := by
      obtain hend | ⟨t', hclamp, ht', -⟩ := hs.trial_after_cases hb hbest hother hfin
      · rw [ht] at hend
        cases hend
        exact absurd rfl hbetween.ne_left
      · rw [not_not.mp hunmoved, hmiddle] at hclamp
        rw [ht] at ht'
        cases hclamp
        cases ht'
        rfl
    have hhalf := hcuts.halves htrial
    have hpos : 0 ≤ w := (abs_nonneg _).trans hle
    linarith
  · have := hcuts.width_le hbetween
    linarith

/-- What holds of the bracketed interval, round after round. -/
structure Narrows (s : MoreThuente (Exact K)) (o : Oracle (Exact K) V M) (r : Ray (Exact K) V)
    (slope alpha : Exact K) (l : Ledger (Exact K) V) : Prop where
  /-- Every round begins with the interval that the update before it has left. -/
  carried : ∀ k st y st' l', Updates s o r slope alpha l k st y →
    Reaches s o r slope alpha l (k + 1) st' l' →
    st'.bracketed = (updateAfter s r slope st y).bracketed ∧
      st'.best = (updateAfter s r slope st y).best ∧
      st'.other = (updateAfter s r slope st y).other
  /-- An update of a bracketed interval leaves one that lies in it. -/
  within : ∀ k st y, Updates s o r slope alpha l k st y → st.bracketed = true →
    (updateAfter s r slope st y).bracketed = true ∧
      Scalar.smaller st.best.step st.other.step ≤ Scalar.smaller
        (updateAfter s r slope st y).best.step (updateAfter s r slope st y).other.step ∧
      Scalar.larger (updateAfter s r slope st y).best.step
        (updateAfter s r slope st y).other.step ≤ Scalar.larger st.best.step st.other.step
  /-- A trial lies strictly inside, or else at the best end, and is the last one then. -/
  inside : ∀ k st l', Reaches s o r slope alpha l k st l' → st.bracketed = true →
    Between st.best.step st.other.step st.trial ∨ st.trial = st.best.step ∧
      ∀ l₁ st' l₂, (s.attempt o r slope st).perform l₁ ≠ (.ok (.inl st'), l₂)
  /-- Three updates after one that leaves a bracketed interval, its width is at most `0.66` of what
  it was, if the bounds of the search did not move the third of the trials. -/
  shrinks : ∀ k st y st₂ y₂ st₃ y₃, Updates s o r slope alpha l k st y →
    (updateAfter s r slope st y).bracketed = true →
    Updates s o r slope alpha l (k + 2) st₂ y₂ → Updates s o r slope alpha l (k + 3) st₃ y₃ →
    ¬ Moved s st₂ (updateAfter s r slope st₂ y₂) →
    (updateAfter s r slope st₃ y₃).width ≤ bisectRatio * (updateAfter s r slope st y).width

/-- A bracketed trial at the best end is the last one. -/
theorem Fitted.attempt_ne (hfit : Fitted st a b) (hb : st.bracketed = true)
    (ht : st.trial = number a) (l₁ : Ledger (Exact K) V) (st' : State (Exact K) V)
    (l₂ : Ledger (Exact K) V) :
    (s.attempt o r slope st).perform l₁ ≠ (.ok (.inl st'), l₂) := by
  intro hround
  obtain ⟨y, -, hj⟩ := exists_hears hround
  obtain ⟨-, hstop, -, -⟩ := judge_eq_inl s r slope st y hj.symm
  obtain ⟨hlow, hhigh⟩ := inside_of_earlyStop s slope st hstop hb
  have htried : (tried r st y).step = number a := ht
  rw [htried, hfit.low_eq, number_le, not_le] at hlow
  rw [htried, hfit.high_eq, number_le, not_le] at hhigh
  exact (between_of_min_max hlow hhigh).ne_left rfl

section Rounds
variable (hs : Accepted s c1 c2 low) (ha : Scalar.isFinite alpha = true)
include hs ha

theorem Updates.within (h : Updates s o r slope alpha l k st y) (hb : st.bracketed = true) :
    (updateAfter s r slope st y).bracketed = true ∧
      Scalar.smaller st.best.step st.other.step ≤ Scalar.smaller
        (updateAfter s r slope st y).best.step (updateAfter s r slope st y).other.step ∧
      Scalar.larger (updateAfter s r slope st y).best.step
        (updateAfter s r slope st y).other.step ≤ Scalar.larger st.best.step st.other.step := by
  obtain ⟨l₁, l₂, hst, -⟩ := h.heard
  obtain ⟨a, b, hfit⟩ := hst.exists_fitted hs ha hb
  obtain ⟨t, a', b', -, hbetween, hcuts, hbest, hother, hb'⟩ := h.exists_cuts hs ha hb hfit
  obtain ⟨hmin, hmax⟩ := hcuts.within hbetween
  rw [hfit.best_eq, hfit.other_eq, hbest, hother, smaller_number, smaller_number, larger_number,
    larger_number]
  exact ⟨hb', number_le.mpr hmin, number_le.mpr hmax⟩

theorem Reaches.inside (h : Reaches s o r slope alpha l k st l') (hb : st.bracketed = true) :
    Between st.best.step st.other.step st.trial ∨ st.trial = st.best.step ∧
      ∀ l₁ st' l₂, (s.attempt o r slope st).perform l₁ ≠ (.ok (.inl st'), l₂) := by
  cases k with
  | zero =>
    obtain ⟨rfl, -⟩ := reaches_zero.mp h
    cases hb
  | succ k =>
    obtain ⟨st₀, y, hu, hfin, rfl⟩ := exists_updates h
    obtain ⟨a, b, hbest, hother⟩ := hu.exists_ends hs ha
    have hb₀ : (updateAfter s r slope st₀ y).bracketed = true := by
      rwa [after, settle_bracketed] at hb
    obtain ⟨hfit, -⟩ := fitted_after hb₀ hbest hother
    rw [hfit.best_eq, hfit.other_eq]
    obtain ht | ⟨t, -, ht, hbetween⟩ := hs.trial_after_cases hb₀ hbest hother hfin
    · exact .inr ⟨ht, hfit.attempt_ne hb ht⟩
    · rw [ht]
      exact .inl hbetween

/-- The width falls over three updates: the second of them does not widen the interval, and the
third either finds less than `0.66` of it or is made at its middle. -/
theorem Updates.shrinks (h : Updates s o r slope alpha l k st y)
    (hb : (updateAfter s r slope st y).bracketed = true) {st₂ st₃ : State (Exact K) V}
    {y₂ y₃ : Iterate (Exact K) V} (h₂ : Updates s o r slope alpha l (k + 2) st₂ y₂)
    (h₃ : Updates s o r slope alpha l (k + 3) st₃ y₃)
    (hunmoved : ¬ Moved s st₂ (updateAfter s r slope st₂ y₂)) :
    (updateAfter s r slope st₃ y₃).width ≤ bisectRatio * (updateAfter s r slope st y).width := by
  obtain ⟨a, b, hbest, hother⟩ := h.exists_ends hs ha
  obtain ⟨l₁, l₂, hst₂, -⟩ := h₂.heard
  obtain ⟨st₁, y₁, h₁, -, rfl⟩ := exists_updates hst₂
  obtain ⟨l₃, l₄, hst₁, -⟩ := h₁.heard
  obtain ⟨-, rfl⟩ := h.next hst₁
  obtain ⟨hfit, -⟩ := fitted_after hb hbest hother
  have hbracketed : (after s r slope st y).bracketed = true := by rw [after, settle_bracketed, hb]
  obtain ⟨t₁, a₁, b₁, -, hbetween₁, hcuts₁, hbest₁, hother₁, hb₁⟩ :=
    h₁.exists_cuts hs ha hbracketed hfit
  obtain ⟨hfit₁, hprevious⟩ := fitted_after hb₁ hbest₁ hother₁
  have hbracketed₁ : (after s r slope (after s r slope st y) y₁).bracketed = true := by
    rw [after, settle_bracketed, hb₁]
  obtain ⟨t₂, a₂, b₂, -, hbetween₂, hcuts₂, hbest₂, hother₂, hb₂⟩ :=
    h₂.exists_cuts hs ha hbracketed₁ hfit₁
  have hwidth : (updateAfter s r slope st y).width = number |b - a| := by
    rw [Update.width, hbest, hother, number_sub, abs_number]
  rw [hwidth]
  refine h₂.width_le_of_previous hs ha (hprevious.trans hfit.width_eq) hb₂ hbest₂ hother₂ ?_
    hunmoved h₃
  exact (hcuts₂.width_le hbetween₂).trans (hcuts₁.width_le hbetween₁)

end Rounds

/-- The bracketed interval shrinks in every call, whatever the oracle says. -/
theorem narrows {asked : Option (Exact K)} (hs : s.check = .ok ())
    (hprepare : r.prepare s.alpha0 asked = .ok (slope, alpha)) (l : Ledger (Exact K) V) :
    Narrows s o r slope alpha l := by
  obtain ⟨c1, c2, low, hacc⟩ := exists_accepted hs
  obtain ⟨-, -, -, ha⟩ := Ray.prepare_eq_ok hprepare
  constructor
  · intro k st y st' l' h hst'
    obtain ⟨-, rfl⟩ := h.next hst'
    exact ⟨settle_bracketed _ _ _, settle_best _ _ _, settle_other _ _ _⟩
  · intro k st y h hb
    exact h.within hacc ha hb
  · intro k st l' hst hb
    exact hst.inside hacc ha hb
  · intro k st y st₂ y₂ st₃ y₃ h hb h₂ h₃ hunmoved
    exact h.shrinks hacc ha hb h₂ h₃ hunmoved

/-- On a staircase the interval `[0, 1]` is cut at `1/4` and at `1/3`, where two thirds of it are left;
the next trial is the middle of the rest. -/
theorem narrows_staircase :
    let p : Problem (Exact ℚ) (Vector (Exact ℚ) 1) (Matrix (Exact ℚ) 1) :=
      ⟨"staircase", none,
        fun v => .ok (if first v < 0.3 then -0.15625 else if first v < 0.5 then -0.25
          else if first v < 0.8 then 0 else 1),
        some fun v => .ok #v[if first v < 0.5 then -0.25 else if first v < 0.8 then 1 else 3],
        none, gradientTest⟩
    let s : MoreThuente (Exact ℚ) := .standard 0.1
    let r : Ray (Exact ℚ) (Vector (Exact ℚ) 1) := ⟨⟨#v[0], 0, #v[-1]⟩, #v[1]⟩
    ∃ st y st₃ y₃, Updates s p.oracle r (-1) 1 {} 0 st y ∧
      (updateAfter s r (-1) st y).width = 1 ∧ Updates s p.oracle r (-1) 1 {} 3 st₃ y₃ ∧
      st₃.trial = number (2 / 3) ∧ (updateAfter s r (-1) st₃ y₃).width ≤ 0.66 * 1 := by
  intro p s r
  have hcheck : s.check = .ok () := by decide +kernel
  have hprepare : r.prepare s.alpha0 none = .ok (-1, 1) := by decide +kernel
  have hnarrows : Narrows s p.oracle r (-1) 1 {} := narrows hcheck hprepare {}
  let y : Iterate (Exact ℚ) (Vector (Exact ℚ) 1) := ⟨#v[1], 1, #v[3]⟩
  let y₂ : Iterate (Exact ℚ) (Vector (Exact ℚ) 1) := ⟨#v[number (1 / 3)], -0.25, #v[-0.25]⟩
  let y₃ : Iterate (Exact ℚ) (Vector (Exact ℚ) 1) := ⟨#v[number (2 / 3)], 0, #v[1]⟩
  let st : State (Exact ℚ) (Vector (Exact ℚ) 1) := s.initial 0 (-1) 1
  let st₂ : State (Exact ℚ) (Vector (Exact ℚ) 1) :=
    ⟨number (1 / 3), ⟨0.25, -0.15625, -0.25⟩, ⟨1, 1, 3⟩, true, true, 0.75, 1, 0.25, 1,
      some (0.25, ⟨#v[0.25], -0.15625, #v[-0.25]⟩), 2⟩
  let st₃ : State (Exact ℚ) (Vector (Exact ℚ) 1) :=
    ⟨number (2 / 3), ⟨number (1 / 3), -0.25, -0.25⟩, ⟨1, 1, 3⟩, true, true, number (2 / 3), 0.75,
      number (1 / 3), 1, some (number (1 / 3), y₂), 3⟩
  have hy (l) : Hears p.oracle r st l y l := hears_oracle (by decide +kernel) (by decide +kernel)
    (by decide +kernel) rfl (by decide +kernel)
  have hy₂ (l) : Hears p.oracle r st₂ l y₂ l := hears_oracle (by decide +kernel)
    (by decide +kernel) (by decide +kernel) rfl (by decide +kernel)
  have hy₃ (l) : Hears p.oracle r st₃ l y₃ l := hears_oracle (by decide +kernel)
    (by decide +kernel) (by decide +kernel) rfl (by decide +kernel)
  have hupdates : Updates s p.oracle r (-1) 1 {} 0 st y :=
    ⟨⟨_, _, Prod.ext (by decide +kernel) rfl, hy _⟩, by decide +kernel, by decide +kernel⟩
  have hupdates₂ : Updates s p.oracle r (-1) 1 {} 2 st₂ y₂ :=
    ⟨⟨_, _, Prod.ext (by decide +kernel) rfl, hy₂ _⟩, by decide +kernel, by decide +kernel⟩
  have hupdates₃ : Updates s p.oracle r (-1) 1 {} 3 st₃ y₃ :=
    ⟨⟨_, _, Prod.ext (by decide +kernel) rfl, hy₃ _⟩, by decide +kernel, by decide +kernel⟩
  have hwidth : (updateAfter s r (-1) st y).width = 1 := by decide +kernel
  have hunmoved : ¬ Moved s st₂ (updateAfter s r (-1) st₂ y₂) := by
    rw [Moved, not_not]
    decide +kernel
  have hle := hnarrows.shrinks 0 st y st₂ y₂ st₃ y₃ hupdates (by decide +kernel) hupdates₂ hupdates₃
    hunmoved
  rw [hwidth] at hle
  exact ⟨st, y, st₃, y₃, hupdates, hwidth, hupdates₃, rfl, hle⟩

end Downhill.MoreThuente
