import Downhill.Proofs.LineSearch.MoreThuente.Trial

/-! The trials of a search. In any arithmetic and with any parameters, a search that succeeds hands
over one of its trials: a point of the ray, with the value and the gradient that it heard of there.
A step that was kept for later is kept with both. -/
namespace Downhill
variable {α V M : Type} [Scalar α] [Space α V] {o : Oracle α V M}

section Checks
variable {x : V}

omit [Space α V] in
theorem Yields.trialValue {F : α → Prop} (h : Yields (o.value x) F) (alpha : α) :
    Yields (trialValue o x alpha) fun f => F f ∧ Scalar.isFinite f = true := by
  refine .bind h fun f hf => ?_
  refine .bind (Eval.yields_ofExcept _) fun u hu => ?_
  exact .pure ⟨hf, checkScalar_eq_ok_iff.mp hu⟩

omit [Scalar α] in
theorem Yields.trialGradient {G : V → Prop} (h : Yields (o.gradient x) G) (alpha : α) :
    Yields (trialGradient o x alpha) fun g => G g ∧ Space.finite g = true := by
  refine .bind h fun g hg => ?_
  refine .bind (Eval.yields_ofExcept _) fun u hu => ?_
  exact .pure ⟨hg, checkArray_eq_ok_iff.mp hu⟩

end Checks

/-- What is heard along a ray: at step length `a`, values with `F a` and gradients with `G a`. -/
structure Ray.Hears (o : Oracle α V M) (r : Ray α V) (F : α → α → Prop) (G : α → V → Prop) :
    Prop where
  value : ∀ a, Yields (o.value (r.along a)) (F a)
  gradient : ∀ a, Yields (o.gradient (r.along a)) (G a)

/-- An iterate that a trial along the ray has reached. -/
def Ray.Tried (r : Ray α V) (F : α → α → Prop) (G : α → V → Prop) (y : Iterate α V) : Prop :=
  ∃ a, y.point = r.along a ∧ F a y.value ∧ G a y.gradient

variable {r : Ray α V} {F : α → α → Prop} {G : α → V → Prop}

/-- A step that succeeds comes from a trial. -/
def Step.Tried (r : Ray α V) (F : α → α → Prop) (G : α → V → Prop) (step : Step α V) : Prop :=
  step.success = true → r.Tried F G step.reached

/-- The step that was kept, if any, comes from a trial. -/
def Kept (r : Ray α V) (F : α → α → Prop) (G : α → V → Prop) (kept : Option (α × Iterate α V)) :
    Prop :=
  ∀ a y, kept = some (a, y) → r.Tried F G y

omit [Scalar α] in
theorem Ray.tried_along {a f : α} {g : V} (hf : F a f) (hg : G a g) :
    r.Tried F G ⟨r.along a, f, g⟩ :=
  ⟨a, rfl, hf, hg⟩

omit [Scalar α] in
theorem Step.tried_accepted {alpha : α} {y : Iterate α V} {v g : ℕ} {message : SearchMessage α}
    (h : r.Tried F G y) : (Step.accepted alpha y v g message).Tried r F G :=
  fun _ => h

theorem Step.tried_failed {v g : ℕ} {message : SearchMessage α} :
    (Step.failed r v g message).Tried r F G := by rintro ⟨⟩

omit [Scalar α] in
theorem kept_none : Kept r F G none := by rintro _ _ ⟨⟩

omit [Scalar α] in
/-- A capped loop whose rounds keep an invariant and end with steps from trials. -/
theorem yields_rounds {σ : Type} {I : σ → Prop} {attempt : σ → Eval α V (σ ⊕ Step α V)}
    {next : σ ⊕ Step α V → Eval α V (Step α V)} {t : σ} (ht : I t) (cap : ℕ)
    (hround : ∀ t, I t → Yields (attempt t) (Sum.elim I (Step.Tried r F G)))
    (hcap : ∀ t, I t → Yields (next (.inl t)) (Step.Tried r F G))
    (hstep : ∀ step, next (.inr step) = pure step) :
    Yields (upTo attempt cap t >>= next) (Step.Tried r F G) := by
  refine .rounds hround ht cap fun u hu => ?_
  cases u with
  | inl t => exact hcap t hu
  | inr step => rw [hstep]; exact .pure hu

section Searches
variable (h : r.Hears o F G)
include h

/-- A trial that is taken where the value has decreased sufficiently. -/
theorem Ray.Hears.yields_armijoTrial {σ : Type} {alpha slope c1 : α} (trials : ℕ)
    {next : α → Eval α V (σ ⊕ Step α V)}
    (hnext : ∀ f, Yields (next f) (Sum.elim (fun _ => True) (Step.Tried r F G))) :
    Yields (do
        let f ← trialValue o (r.along alpha) alpha
        if sufficientDecrease f r.start.value alpha slope c1 then
          let g ← trialGradient o (r.along alpha) alpha
          return .inr (.accepted alpha ⟨r.along alpha, f, g⟩ (trials + 1) 1 .armijo)
        else next f)
      (Sum.elim (fun _ => True) (Step.Tried r F G)) := by
  refine .bind ((h.value _).trialValue _) fun f ⟨hf, _⟩ => .ite (fun _ => ?_) fun _ => hnext f
  refine .bind ((h.gradient _).trialGradient _) fun g ⟨hg, _⟩ => ?_
  exact .pure (Step.tried_accepted (Ray.tried_along hf hg))

variable (asked : Option α)

theorem Backtracking.yields_search (s : Backtracking α) :
    Yields (s.search o r asked) (Step.Tried r F G) := by
  refine .bind .any fun ⟨slope, alpha⟩ _ => yields_rounds (I := fun _ => True) trivial _
    (fun t _ => ?_) (fun _ _ => .pure Step.tried_failed) fun _ => rfl
  refine h.yields_armijoTrial _ fun f => .ite (fun _ => ?_) fun _ => ?_
  · exact .pure Step.tried_failed
  · exact .pure trivial

theorem CubicBacktracking.yields_search (s : CubicBacktracking α) :
    Yields (s.search o r asked) (Step.Tried r F G) := by
  refine .bind .any fun ⟨slope, alpha⟩ _ => yields_rounds (I := fun _ => True) trivial _
    (fun t _ => ?_) (fun _ _ => .pure Step.tried_failed) fun _ => rfl
  refine h.yields_armijoTrial _ fun f => .bind .any fun b _ => .ite (fun _ => ?_) fun _ => ?_
  · exact .pure Step.tried_failed
  · exact .pure trivial

namespace Bisection
variable {s : Bisection α} {t : State α V}

omit h in
theorem tried_conclude (ht : Kept r F G t.best) : (s.conclude r t).Tried r F G := by
  unfold conclude
  split
  · rename_i a y hbest
    exact Step.tried_accepted (ht a y hbest)
  · exact Step.tried_failed

omit h in
theorem tried_advance (ht : Kept r F G t.best) :
    Sum.elim (fun t => Kept r F G t.best) (Step.Tried r F G) (s.advance r t) := by
  simp only [advance]
  split_ifs
  · exact tried_conclude ht
  · exact ht

theorem yields_attempt (slope : α) (ht : Kept r F G t.best) :
    Yields (s.attempt o r slope t)
      (Sum.elim (fun t => Kept r F G t.best) (Step.Tried r F G)) := by
  refine .bind ((h.value _).trialValue _) fun f ⟨hf, _⟩ => .ite (fun _ => ?_) fun _ => ?_
  · refine .bind ((h.gradient _).trialGradient _) fun g ⟨hg, _⟩ => ?_
    have hy : r.Tried F G ⟨r.along t.alpha, f, g⟩ := Ray.tried_along hf hg
    refine .ite (fun _ => .pure (Step.tried_accepted hy)) fun _ => .bind .any fun m _ => ?_
    refine .ite (fun _ => .pure (Step.tried_accepted hy)) fun _ => .pure (tried_advance ?_)
    rintro _ _ ⟨⟩
    exact hy
  · exact .pure (tried_advance ht)

theorem yields_search (s : Bisection α) : Yields (s.search o r asked) (Step.Tried r F G) := by
  exact .bind .any fun ⟨slope, alpha⟩ _ => yields_rounds (I := fun t => Kept r F G t.best) kept_none
    _ (fun t ht => yields_attempt h slope ht) (fun t ht => .pure (tried_conclude ht)) fun _ => rfl

end Bisection

namespace MoreThuente
variable {s : MoreThuente α} {st : State α V}

omit h in
theorem tried_conclude {candidate : Option (α × Iterate α V)} {trials : ℕ} {cause : EarlyStop}
    (hkept : Kept r F G candidate) : (conclude r candidate trials cause).Tried r F G := by
  unfold conclude
  split
  · exact Step.tried_accepted (hkept _ _ rfl)
  · exact Step.tried_failed

omit h in
theorem kept_candidateAfter {slope : α} {y : Iterate α V} (hkept : Kept r F G st.candidate)
    (hy : r.Tried F G y) : Kept r F G (candidateAfter s r slope st y) := by
  unfold candidateAfter better
  split_ifs
  · rintro _ _ ⟨⟩
    exact hy
  · exact hkept

theorem yields_attempt (slope : α) (hkept : Kept r F G st.candidate) :
    Yields (s.attempt o r slope st)
      (Sum.elim (fun st => Kept r F G st.candidate) (Step.Tried r F G)) := by
  refine .bind (h.value _) fun f hf => .bind (h.gradient _) fun g hg => ?_
  refine .bind .any fun _ _ => .bind .any fun _ _ => .bind .any fun _ _ => .pure ?_
  have hy : r.Tried F G ⟨r.along st.trial, f, g⟩ := Ray.tried_along hf hg
  have hafter : Kept r F G (candidateAfter s r slope st _) := kept_candidateAfter hkept hy
  obtain ⟨-, hj⟩ | ⟨cause, hj⟩ | ⟨-, -, -, hj⟩ := judge_cases s r slope st _ <;> rw [hj]
  · exact Step.tried_accepted hy
  · exact tried_conclude hafter
  · simpa [after] using hafter

theorem yields_search (s : MoreThuente α) : Yields (s.search o r asked) (Step.Tried r F G) := by
  exact .bind .any fun ⟨slope, alpha⟩ _ => yields_rounds (I := fun st => Kept r F G st.candidate)
    kept_none _ (fun st hst => yields_attempt h slope hst)
    (fun st hst => .pure (tried_conclude hst)) fun _ => rfl

end MoreThuente

/-- Whatever its parameters are, a search of the library hands over one of its trials. -/
theorem LineSearch.yields_tried (s : LineSearch α) :
    Yields (s.search o r asked) (Step.Tried r F G) := by
  cases s with
  | base => exact .throw _
  | backtracking s => exact s.yields_search h asked
  | cubic s => exact s.yields_search h asked
  | bisection s => exact s.yields_search h asked
  | moreThuente s => exact s.yields_search h asked

end Searches

/-! What the searches hand over belongs together. In any arithmetic and with any parameters, a
search that succeeds comes with the value and the gradient of the point that it reached. -/

section Quiet
variable (ho : o.Quiet)

section Trials
include ho

omit [Space α V] in
theorem yields_trialValue (x : V) (alpha : α) :
    Yields (trialValue o.recorded x alpha) fun f =>
      o.valueAt x = .ok f ∧ Scalar.isFinite f = true :=
  (ho.yields_value x).trialValue alpha

omit [Scalar α] in
theorem yields_trialGradient (x : V) (alpha : α) :
    Yields (trialGradient o.recorded x alpha) fun g =>
      o.gradientAt x = .ok g ∧ Space.finite g = true :=
  (ho.yields_gradient x).trialGradient alpha

end Trials

/-- A step that succeeds reached an iterate with its own value and gradient. -/
def Step.Honest (o : Oracle α V M) (step : Step α V) : Prop :=
  step.success = true → o.Faithful step.reached

include ho

/-- Whatever its parameters are, a search of the library is honest. -/
theorem LineSearch.yields_search (r : Ray α V) (asked : Option α) (s : LineSearch α) :
    Yields (s.search o.recorded r asked) (Step.Honest o) := by
  have hears : r.Hears o.recorded (fun a f => o.valueAt (r.along a) = .ok f)
      fun a g => o.gradientAt (r.along a) = .ok g :=
    ⟨fun a => ho.yields_value _, fun a => ho.yields_gradient _⟩
  refine (s.yields_tried hears asked).mono fun step htried hsuccess => ?_
  obtain ⟨a, hpoint, hvalue, hgradient⟩ := htried hsuccess
  exact ⟨hpoint ▸ hvalue, hpoint ▸ hgradient⟩

end Quiet

end Downhill
