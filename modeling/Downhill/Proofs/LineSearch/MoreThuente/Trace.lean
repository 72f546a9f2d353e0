import Downhill.Proofs.LineSearch.MoreThuente.Contract

/-! The course of a bracketing search, round after round, on any oracle. A round that goes on, and
also the one that ends the search, judges what it has heard at its trial; a search that returns a
step has ended in one of its rounds, or has made all the trials that it may make. -/
namespace Downhill

section Loops
variable {α V σ β : Type} {round : σ → Eval α V (σ ⊕ β)} {s s' : σ} {b : β} {k : ℕ}
  {l l' : Ledger α V}

/-- A loop goes on after round `k` if that round does. -/
theorem perform_upTo_succ_eq_inl :
    (upTo round (k + 1) s).perform l = (.ok (.inl s'), l') ↔
      ∃ s₁ l₁, (upTo round k s).perform l = (.ok (.inl s₁), l₁) ∧
        (round s₁).perform l₁ = (.ok (.inl s'), l') := by
  rw [upTo_succ_last, Eval.perform_bind]
  rcases hk : (upTo round k s).perform l with ⟨f | s₁ | b, l₁⟩
  · exact ⟨nofun, by rintro ⟨_, _, ⟨⟩, _⟩⟩
  · exact ⟨fun h => ⟨s₁, l₁, rfl, h⟩, by rintro ⟨_, _, ⟨⟩, h⟩; exact h⟩
  · exact ⟨nofun, by rintro ⟨_, _, ⟨⟩, _⟩⟩

/-- A loop ends with a result in one of its rounds. -/
theorem perform_upTo_eq_inr :
    (upTo round k s).perform l = (.ok (.inr b), l') ↔
      ∃ j < k, ∃ s₁ l₁, (upTo round j s).perform l = (.ok (.inl s₁), l₁) ∧
        (round s₁).perform l₁ = (.ok (.inr b), l') := by
  induction k with
  | zero => exact ⟨nofun, by rintro ⟨_, hj, -⟩; exact absurd hj (Nat.not_lt_zero _)⟩
  | succ k ih =>
    have hlast : (∃ j < k + 1, ∃ s₁ l₁, (upTo round j s).perform l = (.ok (.inl s₁), l₁) ∧
        (round s₁).perform l₁ = (.ok (.inr b), l')) ↔
        (upTo round k s).perform l = (.ok (.inr b), l') ∨
          ∃ s₁ l₁, (upTo round k s).perform l = (.ok (.inl s₁), l₁) ∧
            (round s₁).perform l₁ = (.ok (.inr b), l') := by
      rw [ih]
      constructor
      · rintro ⟨j, hj, h⟩
        rcases Nat.lt_succ_iff_lt_or_eq.mp hj with hj | rfl
        · exact .inl ⟨j, hj, h⟩
        · exact .inr h
      · rintro (⟨j, hj, h⟩ | h)
        · exact ⟨j, Nat.lt_succ_of_lt hj, h⟩
        · exact ⟨k, Nat.lt_succ_self k, h⟩
    rw [hlast, upTo_succ_last, Eval.perform_bind]
    rcases hk : (upTo round k s).perform l with ⟨f | s₁ | b', l₁⟩
    · refine ⟨nofun, ?_⟩
      rintro (h | ⟨_, _, h, _⟩) <;> cases h
    · refine ⟨fun h => .inr ⟨s₁, l₁, rfl, h⟩, ?_⟩
      rintro (h | ⟨_, _, h₁, h⟩)
      · cases h
      · cases h₁
        exact h
    · refine ⟨fun h => .inl h, ?_⟩
      rintro (h | ⟨_, _, h, _⟩)
      · exact h
      · cases h

end Loops

namespace MoreThuente
variable {α V M : Type} [Scalar α] [Space α V]

/-- Round `k` of a search from the trial `alpha`, counted from zero, begins in the state `st`, with
the account `l'`. -/
def Reaches (s : MoreThuente α) (o : Oracle α V M) (r : Ray α V) (slope alpha : α) (l : Ledger α V)
    (k : ℕ) (st : State α V) (l' : Ledger α V) : Prop :=
  (upTo (s.attempt o r slope) k (s.initial r.start.value slope
    (Scalar.clamp s.alphaMin s.alphaMax alpha))).perform l = (.ok (.inl st), l')

/-- At its trial the search hears the value and the gradient of `y`, and both are finite. -/
structure Hears (o : Oracle α V M) (r : Ray α V) (st : State α V) (l : Ledger α V)
    (y : Iterate α V) (l' : Ledger α V) : Prop where
  point_eq : y.point = r.along st.trial
  answers : ∃ l₁, (o.value y.point).perform l = (.ok y.value, l₁) ∧
    (o.gradient y.point).perform l₁ = (.ok y.gradient, l')
  value_finite : Scalar.isFinite y.value = true
  gradient_finite : Space.finite y.gradient = true

variable {s : MoreThuente α} {o : Oracle α V M} {r : Ray α V} {slope alpha : α} {k : ℕ}
  {st st' : State α V} {l l₁ l₂ : Ledger α V}

/-- A round that does not fail judges what was heard. -/
theorem exists_hears {u : State α V ⊕ Step α V}
    (h : (s.attempt o r slope st).perform l₁ = (.ok u, l₂)) :
    ∃ y, Hears o r st l₁ y l₂ ∧ u = s.judge r slope st y := by
  simp only [attempt, Eval.perform_bind] at h
  rcases hf : (o.value (r.along st.trial)).perform l₁ with ⟨e | f, l⟩
  · simp [hf] at h
  rcases hg : (o.gradient (r.along st.trial)).perform l with ⟨e | g, l'⟩
  · simp [hf, hg] at h
  simp only [hf, hg, Eval.perform_ofExcept] at h
  rcases hvalue : checkScalar (.trial "objective" st.trial) f with e | u₁
  · simp [hvalue] at h
  rcases hgradient : checkArray (.trial "gradient" st.trial) (Space.finite g) with e | u₂
  · simp [hvalue, hgradient] at h
  rcases hdot : Space.dotCheck g r.direction with e | u₃
  · simp [hvalue, hgradient, hdot] at h
  simp only [hvalue, hgradient, hdot, Eval.perform_pure, Prod.mk.injEq, Except.ok.injEq] at h
  obtain ⟨rfl, rfl⟩ := h
  exact ⟨⟨_, f, g⟩, ⟨rfl, ⟨l, hf, hg⟩, checkScalar_eq_ok_iff.mp hvalue,
    checkArray_eq_ok_iff.mp hgradient⟩, rfl⟩

/-- A round judges what it hears, if the slope can be formed. -/
theorem Hears.perform_attempt {y : Iterate α V} (h : Hears o r st l₁ y l₂)
    (hdot : Space.dotCheck y.gradient r.direction = .ok ()) :
    (s.attempt o r slope st).perform l₁ = (.ok (s.judge r slope st y), l₂) := by
  obtain ⟨l, hf, hg⟩ := h.answers
  have hvalue : checkScalar (.trial "objective" st.trial) y.value = .ok () :=
    checkScalar_eq_ok_iff.mpr h.value_finite
  have hgradient : checkArray (.trial "gradient" st.trial) (Space.finite y.gradient) =
      (.ok () : Except (Fault α) Unit) := checkArray_eq_ok_iff.mpr h.gradient_finite
  obtain ⟨point, f, g⟩ := y
  obtain rfl : point = r.along st.trial := h.point_eq
  simp only [attempt, Eval.perform_bind, hf, hg, Eval.perform_ofExcept, hvalue, hgradient, hdot,
    Eval.perform_pure]

/-- A problem gives its answers on every account. -/
theorem hears_oracle {p : Problem α V M} {y : Iterate α V} (hpoint : y.point = r.along st.trial)
    (hf : p.value y.point = .ok y.value) (hg : p.gradient y.point = .ok y.gradient)
    (hvalue : Scalar.isFinite y.value = true) (hgradient : Space.finite y.gradient = true) :
    Hears p.oracle r st l y l :=
  ⟨hpoint, ⟨l, Prod.ext hf rfl, Prod.ext hg rfl⟩, hvalue, hgradient⟩

/-- What the search hears of a quiet oracle is what the oracle says there. -/
theorem Hears.faithful {y : Iterate α V} (ho : o.Quiet) (h : Hears o.recorded r st l₁ y l₂) :
    o.Faithful y := by
  obtain ⟨l, hf, hg⟩ := h.answers
  exact ⟨(ho.perform_value y.point l₁).1.symm.trans (congrArg Prod.fst hf),
    (ho.perform_gradient y.point l).1.symm.trans (congrArg Prod.fst hg)⟩

/-- A search hears what a quiet oracle says. -/
theorem exists_hears_of_faithful {y : Iterate α V} (ho : o.Quiet)
    (hpoint : y.point = r.along st.trial) (hy : o.Faithful y)
    (hvalue : Scalar.isFinite y.value = true) (hgradient : Space.finite y.gradient = true)
    (l : Ledger α V) : ∃ l', Hears o.recorded r st l y l' :=
  ⟨_, hpoint, ⟨_, Prod.ext ((ho.perform_value y.point l).1.trans hy.1) rfl,
    Prod.ext ((ho.perform_gradient y.point _).1.trans hy.2) rfl⟩, hvalue, hgradient⟩

/-- A round asks for one value and for one gradient. -/
theorem Hears.requests_eq {y : Iterate α V} (ho : o.Quiet) (h : Hears o.recorded r st l₁ y l₂) :
    l₂.requests = (l₁.requests.push (.value y.point)).push (.gradient y.point) := by
  obtain ⟨l, hf, hg⟩ := h.answers
  have hvalue := (ho.perform_value y.point l₁).2
  have hgradient := (ho.perform_gradient y.point l).2
  rw [hf] at hvalue
  rw [hg] at hgradient
  exact hgradient.trans (congrArg (Array.push · _) hvalue)

theorem reaches_zero : Reaches s o r slope alpha l 0 st l₁ ↔
    st = s.initial r.start.value slope (Scalar.clamp s.alphaMin s.alphaMax alpha) ∧ l₁ = l := by
  simp only [Reaches, upTo_zero, Eval.perform_pure, Prod.mk.injEq, Except.ok.injEq, Sum.inl.injEq,
    eq_comm]

/-- A round is reached from the one before it. -/
theorem reaches_succ : Reaches s o r slope alpha l (k + 1) st' l₂ ↔
    ∃ st l₁, Reaches s o r slope alpha l k st l₁ ∧
      (s.attempt o r slope st).perform l₁ = (.ok (.inl st'), l₂) :=
  perform_upTo_succ_eq_inl

theorem exists_judge_of_reaches_succ (h : Reaches s o r slope alpha l (k + 1) st' l₂) :
    ∃ st l₁ y, Reaches s o r slope alpha l k st l₁ ∧ Hears o r st l₁ y l₂ ∧
      s.judge r slope st y = .inl st' := by
  obtain ⟨st, l₁, hst, hround⟩ := reaches_succ.mp h
  obtain ⟨y, hy, hj⟩ := exists_hears hround
  exact ⟨st, l₁, y, hst, hy, hj.symm⟩

/-- The state in which a round begins is determined. -/
theorem Reaches.unique (h : Reaches s o r slope alpha l k st l₁)
    (h' : Reaches s o r slope alpha l k st' l₂) : st = st' ∧ l₁ = l₂ := by
  rw [Reaches, h] at h'
  cases h'
  exact ⟨rfl, rfl⟩

theorem Hears.unique {y y' : Iterate α V} {l₃ : Ledger α V} (h : Hears o r st l₁ y l₂)
    (h' : Hears o r st l₁ y' l₃) : y = y' := by
  obtain ⟨l, hf, hg⟩ := h.answers
  obtain ⟨l', hf', hg'⟩ := h'.answers
  have hpoint : y'.point = y.point := h'.point_eq.trans h.point_eq.symm
  rw [hpoint, hf] at hf'
  obtain ⟨hvalue, rfl⟩ := Prod.mk.inj hf'
  rw [hpoint, hg] at hg'
  obtain ⟨hgradient, -⟩ := Prod.mk.inj hg'
  obtain ⟨_, _, _⟩ := y
  obtain ⟨_, _, _⟩ := y'
  simp_all

/-- A property of states that holds at the start and that every round keeps. -/
theorem Reaches.induction {P : ℕ → State α V → Prop}
    (h : Reaches s o r slope alpha l k st l₁)
    (hinitial : P 0 (s.initial r.start.value slope (Scalar.clamp s.alphaMin s.alphaMax alpha)))
    (hround : ∀ k st y st', P k st → Scalar.isFinite y.value = true →
      s.judge r slope st y = .inl st' → P (k + 1) st') : P k st := by
  induction k generalizing st l₁ with
  | zero =>
    obtain ⟨rfl, -⟩ := reaches_zero.mp h
    exact hinitial
  | succ k ih =>
    obtain ⟨st₀, l₀, y, hst, hy, hj⟩ := exists_judge_of_reaches_succ h
    exact hround k st₀ y st (ih hst) hy.value_finite hj

/-- Every round makes one trial. -/
theorem Reaches.trials_eq (h : Reaches s o r slope alpha l k st l₁) : st.trials = k := by
  refine h.induction (P := fun k st => st.trials = k) rfl fun k st y st' hst _ hj => ?_
  obtain ⟨-, -, -, rfl⟩ := judge_eq_inl s r slope st y hj
  rw [after, settle_trials, hst]

/-- As long as no interval is bracketed the widths are those of the start. -/
theorem Reaches.previousWidth_eq (h : Reaches s o r slope alpha l k st l₁)
    (hb : st.bracketed = false) : st.previousWidth = 2.0 * (s.alphaMax - s.alphaMin) := by
  revert hb
  refine h.induction (P := fun _ st => st.bracketed = false →
    st.previousWidth = 2.0 * (s.alphaMax - s.alphaMin)) (fun _ => rfl) fun k st y st' hst _ hj hb => ?_
  obtain ⟨-, -, -, rfl⟩ := judge_eq_inl s r slope st y hj
  rw [after, settle_bracketed] at hb
  obtain ⟨-, -, hb'⟩ | ⟨-, -, hb'⟩ | ⟨-, -, hb'⟩ := updateAfter_movesEnds s r slope st y
  · cases hb'.symm.trans hb
  · cases hb'.symm.trans hb
  · rw [after, settle_of_unbracketed _ _ _ hb]
    exact hst (hb'.symm.trans hb)

/-- A search returns a step if it ends in one of its rounds, or with the last that it may make. -/
theorem perform_search_eq_ok {asked : Option α} {step : Step α V} :
    (s.search o r asked).perform l = (.ok step, l₂) ↔
      ∃ slope alpha, r.prepare s.alpha0 asked = .ok (slope, alpha) ∧
        ((∃ k < s.maxEvals.toNat, ∃ st l₁, Reaches s o r slope alpha l k st l₁ ∧
          (s.attempt o r slope st).perform l₁ = (.ok (.inr step), l₂)) ∨
        ∃ st, Reaches s o r slope alpha l s.maxEvals.toNat st l₂ ∧
          step = conclude r st.candidate st.trials (.evaluations s.maxEvals.toNat)) := by
  simp only [search, Eval.perform_bind, Eval.perform_ofExcept]
  rcases hprepare : r.prepare s.alpha0 asked with e | ⟨slope, alpha⟩
  · simp
  simp only [Except.ok.injEq, Prod.mk.injEq]
  constructor
  · intro h
    refine ⟨slope, alpha, ⟨rfl, rfl⟩, ?_⟩
    rcases hloop : (upTo (s.attempt o r slope) s.maxEvals.toNat (s.initial r.start.value slope
      (Scalar.clamp s.alphaMin s.alphaMax alpha))).perform l with ⟨e | st | step', l'⟩ <;>
      rw [hloop] at h
    · cases h
    · cases h
      exact .inr ⟨st, hloop, rfl⟩
    · cases h
      exact .inl (perform_upTo_eq_inr.mp hloop)
  · rintro ⟨_, _, ⟨rfl, rfl⟩, hround | ⟨st, hst, rfl⟩⟩
    · rw [perform_upTo_eq_inr.mpr hround]
      rfl
    · rw [Reaches] at hst
      rw [hst]
      rfl

section Numbers
variable {K : Type} [ExactField K] [Space (Exact K) V] {s : MoreThuente (Exact K)}
  {o : Oracle (Exact K) V M} {r : Ray (Exact K) V} {slope alpha : Exact K} {c1 c2 low : K}
  {st : State (Exact K) V} {l l₁ : Ledger (Exact K) V}

/-- The trial and the ends of the interval are numbers that are not negative. -/
structure Steps (st : State (Exact K) V) : Prop where
  trial : Forward st.trial
  best : Forward st.best.step
  other : Forward st.other.step

theorem Accepted.steps_judge (hs : Accepted s c1 c2 low) (h : Steps st) {y : Iterate (Exact K) V}
    {st' : State (Exact K) V} (hj : s.judge r slope st y = .inl st') : Steps st' := by
  obtain ⟨-, -, hfin, rfl⟩ := judge_eq_inl s r slope st y hj
  obtain ⟨hbest, hother⟩ := update_steps s r.start.value slope st (outlasts s r slope st y)
    (tried r st y) h.best h.other h.trial
  refine ⟨hs.forward_settle hbest hother hfin, ?_, ?_⟩
  · rwa [after, settle_best]
  · rwa [after, settle_other]

theorem Reaches.steps (hs : Accepted s c1 c2 low) (ha : Scalar.isFinite alpha = true)
    (h : Reaches s o r slope alpha l k st l₁) : Steps st := by
  have hzero : Forward (0 : Exact K) := ⟨0, le_rfl, rfl⟩
  refine h.induction (P := fun _ => Steps) ⟨hs.forward_clamp ha, hzero, hzero⟩ ?_
  intro k st y st' hst _ hj
  exact hs.steps_judge hst hj

end Numbers

end MoreThuente

end Downhill
