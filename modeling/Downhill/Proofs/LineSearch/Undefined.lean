import Downhill.Proofs.LineSearch.Faults

/-! What a search hears. The questions that a search puts to its problem are those of its trials,
one after the other: the value at a point of the ray, and where the search wants it the gradient
there. As long as the answers are finite the search goes on, and the first answer that is not, or
that the problem refuses to give, ends it with a fault. So a numerical fault is about the last
trial, and no other fault is one. -/
namespace Downhill
variable {α V M β γ : Type} [Scalar α]

/-- Whether the answer to a question is finite, if there is one. -/
def Oracle.finiteAt [Space α V] (o : Oracle α V M) : Request V → Except (Fault α) Bool
  | .value x => (o.valueAt x).map Scalar.isFinite
  | .gradient x => (o.gradientAt x).map Space.finite
  | .hessian _ => .ok true

/-- A trial of a search: a step along the ray, and whether the gradient is asked for, too. -/
structure Trial (α : Type) where
  step : α
  full : Bool
  deriving Repr, DecidableEq

namespace Trial
variable [Space α V]

/-- The questions of a trial. -/
def asks (r : Ray α V) (t : Trial α) : List (Request V) :=
  .value (r.along t.step) :: if t.full then [.gradient (r.along t.step)] else []

/-- An answer to a trial was not finite. -/
def Undefined (o : Oracle α V M) (r : Ray α V) (t : Trial α) : Prop :=
  ∃ q ∈ t.asks r, o.finiteAt q = .ok false

/-- A question of a trial was answered with a fault of the problem. -/
def Raises (o : Oracle α V M) (r : Ray α V) (t : Trial α) (e : Fault α) : Prop :=
  ∃ q ∈ t.asks r, o.finiteAt q = .error e

/-- All answers to a trial were finite. -/
def Defined (o : Oracle α V M) (r : Ray α V) (t : Trial α) : Prop :=
  ∀ q ∈ t.asks r, o.finiteAt q = .ok true

/-- What the checks say of the answers to a trial. Value and gradient of a full trial are heard
before either of them is looked at. -/
def check (o : Oracle α V M) (r : Ray α V) (t : Trial α) : Except (Fault α) Unit := do
  let f ← o.valueAt (r.along t.step)
  if t.full then
    let g ← o.gradientAt (r.along t.step)
    checkScalar (.trial "objective" t.step) f
    checkArray (.trial "gradient" t.step) (Space.finite g)
  else checkScalar (.trial "objective" t.step) f

variable {o : Oracle α V M} {r : Ray α V} {a f : α}

theorem check_of_value_eq_error {e : Fault α} (h : o.valueAt (r.along a) = .error e) (full : Bool) :
    (⟨a, full⟩ : Trial α).check o r = .error e := by
  rw [check, h]
  rfl

theorem check_half (h : o.valueAt (r.along a) = .ok f) :
    (⟨a, false⟩ : Trial α).check o r = checkScalar (.trial "objective" a) f := by
  rw [check, h]
  rfl

theorem check_full (h : o.valueAt (r.along a) = .ok f) :
    (⟨a, true⟩ : Trial α).check o r = (do
      let g ← o.gradientAt (r.along a)
      checkScalar (.trial "objective" a) f
      checkArray (.trial "gradient" a) (Space.finite g)) := by
  rw [check, h]
  rfl

theorem finiteAt_value (h : o.valueAt (r.along a) = .ok f) :
    o.finiteAt (.value (r.along a)) = .ok (Scalar.isFinite f) := by
  rw [Oracle.finiteAt, h]
  rfl

theorem checkScalar_of_not_finite {what : Quantity α} (h : Scalar.isFinite f = false) :
    checkScalar what f = .error (.numerical (.scalar what f)) := by
  rw [checkScalar, h]
  rfl

/-- The checks pass where everything is finite, name what is not, or hand on what the problem
raised. -/
def Settled (o : Oracle α V M) (r : Ray α V) (t : Trial α) : Prop :=
  (t.Defined o r ∧ t.check o r = .ok ()) ∨
  (t.Undefined o r ∧ (∀ e, ¬ t.Raises o r e) ∧ ∃ c, t.check o r = .error (.numerical c)) ∨
  ∃ e, t.Raises o r e ∧ t.check o r = .error e

theorem settled_half (h : o.valueAt (r.along a) = .ok f) : Settled o r ⟨a, false⟩ := by
  have hasks : asks r ⟨a, false⟩ = [.value (r.along a)] := rfl
  have hvalue := finiteAt_value h
  cases hfin : Scalar.isFinite f with
  | true =>
    refine .inl ⟨?_, (check_half h).trans (if_pos hfin)⟩
    simp [Defined, hasks, hvalue, hfin]
  | false =>
    refine .inr (.inl ⟨?_, ?_, _, (check_half h).trans (checkScalar_of_not_finite hfin)⟩)
    · simp [Undefined, hasks, hvalue, hfin]
    · simp [Raises, hasks, hvalue]

theorem settled_full (h : o.valueAt (r.along a) = .ok f) : Settled o r ⟨a, true⟩ := by
  have hasks : asks r ⟨a, true⟩ = [.value (r.along a), .gradient (r.along a)] := rfl
  have hvalue := finiteAt_value h
  have hcheck := check_full h
  rcases hg : o.gradientAt (r.along a) with e | g
  · refine .inr (.inr ⟨e, ⟨.gradient (r.along a), by simp [hasks], ?_⟩, by rw [hcheck, hg]; rfl⟩)
    rw [Oracle.finiteAt, hg]
    rfl
  have hgradient : o.finiteAt (.gradient (r.along a)) = .ok (Space.finite g) := by
    rw [Oracle.finiteAt, hg]
    rfl
  have hraises : ∀ e, ¬ Raises o r ⟨a, true⟩ e := by simp [Raises, hasks, hvalue, hgradient]
  -- The value is looked at first, and the gradient only where it is finite.
  cases hfin : Scalar.isFinite f with
  | true =>
    have hpasses : checkScalar (.trial "objective" a) f = .ok () := if_pos hfin
    rw [hg, hpasses] at hcheck
    cases hgfin : Space.finite g with
    | true =>
      refine .inl ⟨?_, hcheck.trans (if_pos hgfin)⟩
      simp [Defined, hasks, hvalue, hgradient, hfin, hgfin]
    | false =>
      refine .inr (.inl ⟨?_, hraises, .array (.trial "gradient" a), hcheck.trans ?_⟩)
      · simp [Undefined, hasks, hgradient, hgfin]
      · exact if_neg (Bool.eq_false_iff.mp hgfin)
  | false =>
    rw [hg, checkScalar_of_not_finite hfin] at hcheck
    refine .inr (.inl ⟨?_, hraises, _, hcheck⟩)
    simp [Undefined, hasks, hvalue, hfin]

theorem settled (o : Oracle α V M) (r : Ray α V) (t : Trial α) : t.Settled o r := by
  obtain ⟨a, full⟩ := t
  rcases hf : o.valueAt (r.along a) with e | f
  · refine .inr (.inr ⟨e, ⟨_, List.mem_cons_self, ?_⟩, check_of_value_eq_error hf _⟩)
    rw [Oracle.finiteAt, hf]
    rfl
  cases full with
  | false => exact settled_half hf
  | true => exact settled_full hf

theorem defined_of_check {t : Trial α} (h : t.check o r = .ok ()) : t.Defined o r := by
  obtain ⟨hdefined, -⟩ | ⟨-, -, c, hc⟩ | ⟨e, -, he⟩ := t.settled o r
  · exact hdefined
  · cases h.symm.trans hc
  · cases h.symm.trans he

theorem Defined.not_raises {t : Trial α} (h : t.Defined o r) (e : Fault α) : ¬ t.Raises o r e := by
  rintro ⟨q, hq, he⟩
  cases (h q hq).symm.trans he

theorem Defined.not_undefined {t : Trial α} (h : t.Defined o r) : ¬ t.Undefined o r := by
  rintro ⟨q, hq, hundefined⟩
  cases (h q hq).symm.trans hundefined

end Trial

/-- What becomes of a call whose questions were those of these trials. It ends with a numerical
fault of its own where an answer was not finite and the problem raised none; such an answer is the
last trial's; a call that returns has heard finite answers only; and a fault of the problem is
handed on. -/
structure Ray.Heeds [Space α V] (o : Oracle α V M) (r : Ray α V) (trials : List (Trial α))
    (result : Except (Fault α) β) : Prop where
  numerical_iff : (∃ c, result = .error (.numerical c)) ∧ (∀ t ∈ trials, ∀ e, ¬ t.Raises o r e) ↔
    ∃ t ∈ trials, t.Undefined o r ∧ ∀ e, ¬ t.Raises o r e
  last : ∀ before t after, trials = before ++ t :: after → ¬ t.Defined o r →
    after = [] ∧ ∀ u ∈ before, u.Defined o r
  returned : ∀ b, result = .ok b → ∀ t ∈ trials, t.Defined o r
  raised : ∀ t ∈ trials, ∀ e, t.Raises o r e → ∃ e, t.Raises o r e ∧ result = .error e

namespace Ray.Heeds
variable [Space α V] {o : Oracle α V M} {r : Ray α V} {trials : List (Trial α)}
  {result : Except (Fault α) β}

theorem of_defined (h : ∀ t ∈ trials, t.Defined o r)
    (hresult : ∀ c, result ≠ .error (.numerical c)) : r.Heeds o trials result where
  numerical_iff := by
    constructor
    · rintro ⟨⟨c, hc⟩, -⟩
      exact absurd hc (hresult c)
    · rintro ⟨t, ht, hundefined, -⟩
      exact absurd hundefined (h t ht).not_undefined
  last before t after htrials hnot := absurd (h t (by simp [htrials])) hnot
  returned _ _ := h
  raised t ht e he := absurd he ((h t ht).not_raises e)

theorem of_last {t : Trial α} {f : Fault α} (h : ∀ u ∈ trials, u.Defined o r)
    (ht : t.check o r = .error f) (hresult : result = .error f) :
    r.Heeds o (trials ++ [t]) result where
  numerical_iff := by
    obtain ⟨-, hok⟩ | ⟨hundefined, hraises, c, hc⟩ | ⟨e, hraises, he⟩ := t.settled o r
    · cases ht.symm.trans hok
    · obtain rfl : f = .numerical c := Except.error.inj (ht.symm.trans hc)
      have hnone : ∀ u ∈ trials ++ [t], ∀ e, ¬ u.Raises o r e := by
        intro u hu
        rcases List.mem_append.mp hu with hu | hu
        · exact (h u hu).not_raises
        · exact List.mem_singleton.mp hu ▸ hraises
      exact iff_of_true ⟨⟨c, hresult⟩, hnone⟩ ⟨t, by simp, hundefined, hraises⟩
    · refine iff_of_false (fun hboth => hboth.2 t (by simp) e hraises) ?_
      rintro ⟨u, hu, hundefined, hnone⟩
      rcases List.mem_append.mp hu with hu | hu
      · exact (h u hu).not_undefined hundefined
      · exact hnone e (List.mem_singleton.mp hu ▸ hraises)
  last before u after htrials hnot := by
    rcases List.eq_nil_or_concat after with rfl | ⟨after, v, rfl⟩
    · obtain ⟨rfl, -⟩ := List.append_inj' htrials rfl
      exact ⟨rfl, h⟩
    · rw [List.concat_eq_append, ← List.cons_append, ← List.append_assoc] at htrials
      obtain ⟨rfl, -⟩ := List.append_inj' htrials rfl
      exact absurd (h u (by simp)) hnot
  returned b hb := by
    rw [hresult] at hb
    cases hb
  raised u hu e he := by
    rcases List.mem_append.mp hu with hu | hu
    · exact absurd he ((h u hu).not_raises e)
    obtain rfl := List.mem_singleton.mp hu
    obtain ⟨hdefined, -⟩ | ⟨-, hraises, -⟩ | ⟨e', hraises, he'⟩ := u.settled o r
    · exact absurd he (hdefined.not_raises e)
    · exact absurd he (hraises e)
    · obtain rfl : f = e' := Except.error.inj (ht.symm.trans he')
      exact ⟨f, hraises, hresult⟩

end Ray.Heeds

/-- A result that is no numerical fault. -/
def Unnumerical (e : Except (Fault α) β) : Prop := ∀ f, e = .error f → f.isNumerical = false

namespace Unnumerical
variable {e : Except (Fault α) β}

omit [Scalar α] in
theorem ok (b : β) : Unnumerical (.ok b : Except (Fault α) β) := by
  intro f hf
  cases hf

omit [Scalar α] in
theorem bind {c : Except (Fault α) γ} {next : γ → Except (Fault α) β} (hc : Unnumerical c)
    (hnext : ∀ b, Unnumerical (next b)) : Unnumerical (c >>= next) := by
  intro f hf
  cases c with
  | ok b => exact hnext b f hf
  | error f' =>
    obtain rfl : f' = f := Except.error.inj hf
    exact hc f' rfl

omit [Scalar α] in
theorem ite {φ : Prop} [Decidable φ] {e' : Except (Fault α) β} (h : Unnumerical e)
    (h' : Unnumerical e') : Unnumerical (if φ then e else e') := by
  split_ifs
  · exact h
  · exact h'

theorem inRange (base result : α) : Unnumerical (Interpolation.inRange base result) := by
  intro f hf
  unfold Interpolation.inRange at hf
  split_ifs at hf
  cases hf
  rfl

theorem quadraticMinimizer (f0 slope alpha f : α) :
    Unnumerical (Interpolation.quadraticMinimizer f0 slope alpha f) := by
  exact ite (ok _) ((inRange _ _).bind fun _ => ok _)

theorem cubicMinimizer (f0 slope a0 fa0 a1 fa1 : α) :
    Unnumerical (Interpolation.cubicMinimizer f0 slope a0 fa0 a1 fa1) := by
  refine (inRange _ _).bind fun s0 => (inRange _ _).bind fun s1 => ite (ok _) ?_
  exact (inRange _ _).bind fun _ => (inRange _ _).bind fun _ => ok _

theorem shrink (s : CubicBacktracking α) (f0 slope f : α) (t : CubicBacktracking.State α) :
    Unnumerical (s.shrink f0 slope t f) := by
  unfold CubicBacktracking.shrink
  cases t.previous with
  | none => exact (quadraticMinimizer _ _ _ _).bind fun _ => ok _
  | some p => exact (cubicMinimizer _ _ _ _ _ _).bind fun _ => ok _

theorem prepare {n : ℕ} (r : Ray α (Vector α n)) (default : α) (asked : Option α) :
    Unnumerical (r.prepare default asked) := by
  obtain ⟨-, -, -, h⟩ | ⟨f, h, hf, -⟩ := r.prepare_cases default asked <;> rw [h]
  · exact ok _
  · intro f' hf'
    cases hf'
    exact hf

end Unnumerical

section Account
variable [Space α V] (o : Oracle α V M) (r : Ray α V) (base : List (Request V))

/-- After the questions in `base` a search made trials that were in order, and then it asked what is
in `pending`. -/
def Ray.Pending (pending : List (Request V)) (l : Ledger α V) : Prop :=
  ∃ trials : List (Trial α), (∀ t ∈ trials, t.check o r = .ok ()) ∧
    l.requests.toList = base ++ trials.flatMap (Trial.asks r) ++ pending

/-- Where a part of a search leaves its account. An answer and a fault that is not numerical leave
trials that were in order; any other fault is that of one more trial. -/
def Ray.Leaves : Except (Fault α) β → Ledger α V → Prop
  | .ok _, l => r.Pending o base [] l
  | .error f, l => (f.isNumerical = false ∧ r.Pending o base [] l) ∨
    ∃ t : Trial α, t.check o r = .error f ∧ r.Pending o base (t.asks r) l

/-- A part of a search that makes whole trials. -/
def Ray.Attends (c : Eval α V β) : Prop :=
  Ensures (r.Pending o base []) c (r.Leaves o base)

variable {o r base}

theorem Ray.Pending.close {l : Ledger α V} {t : Trial α} (h : r.Pending o base (t.asks r) l)
    (ht : t.check o r = .ok ()) : r.Pending o base [] l := by
  obtain ⟨trials, hall, hl⟩ := h
  refine ⟨trials ++ [t], fun u hu => ?_, by simp [hl]⟩
  rcases List.mem_append.mp hu with hu | hu
  · exact hall u hu
  · exact List.mem_singleton.mp hu ▸ ht

theorem Ray.Pending.ask {l l' : Ledger α V} {pending : List (Request V)} {q : Request V}
    (h : r.Pending o base pending l) (hl : l'.requests = l.requests.push q) :
    r.Pending o base (pending ++ [q]) l' := by
  obtain ⟨trials, hall, hl'⟩ := h
  exact ⟨trials, hall, by simp [hl, hl']⟩

namespace Ray.Attends

theorem pure (b : β) : r.Attends o base (pure b) := fun _ h => h

theorem ofExcept {e : Except (Fault α) β} (h : Unnumerical e) :
    r.Attends o base (Eval.ofExcept e) := by
  intro l hl
  cases e with
  | ok b => exact hl
  | error f => exact .inl ⟨h f rfl, hl⟩

theorem bind {c : Eval α V γ} {next : γ → Eval α V β} (hc : r.Attends o base c)
    (hnext : ∀ b, r.Attends o base (next b)) : r.Attends o base (c >>= next) :=
  Ensures.bind hc hnext fun _ _ h => h

theorem ite {φ : Prop} [Decidable φ] {c c' : Eval α V β} (h : r.Attends o base c)
    (h' : r.Attends o base c') : r.Attends o base (if φ then c else c') :=
  Ensures.ite (fun _ => h) fun _ => h'

theorem upTo {σ : Type} {round : σ → Eval α V (σ ⊕ β)} (h : ∀ s, r.Attends o base (round s))
    (cap : ℕ) (s : σ) : r.Attends o base (upTo round cap s) := by
  induction cap generalizing s with
  | zero => exact pure _
  | succ cap ih =>
    rw [upTo_succ]
    refine bind (h s) fun u => ?_
    cases u with
    | inl s => exact ih s
    | inr b => exact pure _

section Trials
variable (ho : o.Quiet)
include ho

theorem exists_value {pending : List (Request V)} {l : Ledger α V}
    (hl : r.Pending o base pending l) (x : V) : ∃ l',
      (o.recorded.value x).run.run l = (o.valueAt x, l') ∧
        r.Pending o base (pending ++ [.value x]) l' := by
  obtain ⟨hanswer, hrequests⟩ := ho.perform_value x l
  exact ⟨((o.recorded.value x).perform l).2, Prod.ext hanswer rfl, hl.ask hrequests⟩

theorem exists_gradient {pending : List (Request V)} {l : Ledger α V}
    (hl : r.Pending o base pending l) (x : V) : ∃ l',
      (o.recorded.gradient x).run.run l = (o.gradientAt x, l') ∧
        r.Pending o base (pending ++ [.gradient x]) l' := by
  obtain ⟨hanswer, hrequests⟩ := ho.perform_gradient x l
  exact ⟨((o.recorded.gradient x).perform l).2, Prod.ext hanswer rfl, hl.ask hrequests⟩

omit ho in
/-- What follows a check goes on where the answer was finite. -/
theorem leaves_check {e : Except (Fault α) Unit} {t : Trial α} {next : Eval α V β}
    {l : Ledger α V} (hfails : ∀ f, e = .error f → t.check o r = .error f)
    (hl : r.Pending o base (t.asks r) l)
    (hnext : e = .ok () → r.Leaves o base (next.run.run l).1 (next.run.run l).2) :
    r.Leaves o base ((Eval.ofExcept e >>= fun _ => next).run.run l).1
      ((Eval.ofExcept e >>= fun _ => next).run.run l).2 := by
  cases e with
  | ok u => exact hnext rfl
  | error f => exact .inr ⟨t, hfails f rfl, hl⟩

/-- A trial that asks for the gradient only where the value is good enough. -/
theorem trial (a : α) {good : α → Bool} {more : α → V → Eval α V β} {next : α → Eval α V β}
    (hmore : ∀ f g, r.Attends o base (more f g)) (hnext : ∀ f, r.Attends o base (next f)) :
    r.Attends o base (do
      let f ← trialValue o.recorded (r.along a) a
      if good f then
        let g ← trialGradient o.recorded (r.along a) a
        more f g
      else next f) := by
  intro l hl
  obtain ⟨l₁, hvalue, hl₁⟩ := exists_value ho hl (r.along a)
  simp only [trialValue, trialGradient, bind_assoc, pure_bind]
  rw [run_run_bind, hvalue]
  cases hf : o.valueAt (r.along a) with
  | error e => exact .inr ⟨⟨a, false⟩, Trial.check_of_value_eq_error hf _, hl₁⟩
  | ok f =>
    have hhalf := Trial.check_half hf
    have hfull := Trial.check_full hf
    refine leaves_check (t := ⟨a, false⟩) (fun e he => hhalf.trans he) hl₁ fun hfin => ?_
    by_cases hgood : good f = true
    · obtain ⟨l₂, hgradient, hl₂⟩ := exists_gradient ho hl₁ (r.along a)
      rw [if_pos hgood, run_run_bind, hgradient]
      cases hg : o.gradientAt (r.along a) with
      | error e => exact .inr ⟨⟨a, true⟩, by rw [hfull, hg]; rfl, hl₂⟩
      | ok g =>
        rw [hg, hfin] at hfull
        refine leaves_check (t := ⟨a, true⟩) (fun e he => hfull.trans he) hl₂ fun hfin => ?_
        exact hmore f g l₂ (hl₂.close (t := ⟨a, true⟩) (hfull.trans hfin))
    · rw [if_neg hgood]
      exact hnext f l₁ (hl₁.close (t := ⟨a, false⟩) (hhalf.trans hfin))

/-- A trial that asks for both and looks at them afterwards. -/
theorem fullTrial (a : α) {next : α → V → Eval α V β} (hnext : ∀ f g, r.Attends o base (next f g)) :
    r.Attends o base (do
      let f ← o.recorded.value (r.along a)
      let g ← o.recorded.gradient (r.along a)
      Eval.ofExcept (checkScalar (.trial "objective" a) f)
      Eval.ofExcept (checkArray (.trial "gradient" a) (Space.finite g))
      next f g) := by
  intro l hl
  obtain ⟨l₁, hvalue, hl₁⟩ := exists_value ho hl (r.along a)
  rw [run_run_bind, hvalue]
  cases hf : o.valueAt (r.along a) with
  | error e => exact .inr ⟨⟨a, false⟩, Trial.check_of_value_eq_error hf _, hl₁⟩
  | ok f =>
    have hfull := Trial.check_full hf
    obtain ⟨l₂, hgradient, hl₂⟩ := exists_gradient ho hl₁ (r.along a)
    dsimp only
    rw [run_run_bind, hgradient]
    cases hg : o.gradientAt (r.along a) with
    | error e => exact .inr ⟨⟨a, true⟩, by rw [hfull, hg]; rfl, hl₂⟩
    | ok g =>
      rw [hg] at hfull
      refine leaves_check (t := ⟨a, true⟩) (fun e he => ?_) hl₂ fun hfin => ?_
      · rw [hfull, he]
        rfl
      rw [hfin] at hfull
      refine leaves_check (t := ⟨a, true⟩) (fun e he => hfull.trans he) hl₂ fun hfin => ?_
      exact hnext f g l₂ (hl₂.close (t := ⟨a, true⟩) (hfull.trans hfin))

end Trials

end Ray.Attends

end Account

section Searches
variable {n : ℕ} {o : Oracle α (Vector α n) M} (ho : o.Quiet) (r : Ray α (Vector α n))
  (asked : Option α) (base : List (Request (Vector α n)))
include ho

theorem Backtracking.attends (s : Backtracking α) :
    r.Attends o base (s.search o.recorded r asked) := by
  refine .bind (.ofExcept (.prepare _ _ _)) fun ⟨slope, alpha⟩ =>
    .bind (.upTo (fun t => ?_) _ _) fun u => ?_
  · exact .trial ho _ (fun f g => .pure _) fun f => .ite (.pure _) (.pure _)
  · cases u <;> exact .pure _

theorem CubicBacktracking.attends (s : CubicBacktracking α) :
    r.Attends o base (s.search o.recorded r asked) := by
  refine .bind (.ofExcept (.prepare _ _ _)) fun ⟨slope, alpha⟩ =>
    .bind (.upTo (fun t => ?_) _ _) fun u => ?_
  · refine .trial ho _ (fun f g => .pure _) fun f => ?_
    exact .bind (.ofExcept (.shrink _ _ _ _ _)) fun b => .ite (.pure _) (.pure _)
  · cases u <;> exact .pure _

theorem Bisection.attends (s : Bisection α) :
    r.Attends o base (s.search o.recorded r asked) := by
  refine .bind (.ofExcept (.prepare _ _ _)) fun ⟨slope, alpha⟩ =>
    .bind (.upTo (fun t => ?_) _ _) fun u => ?_
  · refine .trial ho _ (fun f g => .ite (.pure _) ?_) fun f => .pure _
    exact .bind (.ofExcept (.ok _)) fun m => .ite (.pure _) (.pure _)
  · cases u <;> exact .pure _

theorem MoreThuente.attends (s : MoreThuente α) :
    r.Attends o base (s.search o.recorded r asked) := by
  refine .bind (.ofExcept (.prepare _ _ _)) fun ⟨slope, alpha⟩ =>
    .bind (.upTo (fun t => ?_) _ _) fun u => ?_
  · exact .fullTrial ho _ fun f g => .bind (.ofExcept (.ok _)) fun _ => .pure _
  · cases u <;> exact .pure _

/-- A search of the library makes whole trials, whatever its parameters are. -/
theorem LineSearch.attends (s : LineSearch α) : r.Attends o base (s.search o.recorded r asked) := by
  cases s with
  | base => exact .ofExcept (e := .error .abstract) fun f hf => by cases hf; rfl
  | backtracking s => exact s.attends ho r asked base
  | cubic s => exact s.attends ho r asked base
  | bisection s => exact s.attends ho r asked base
  | moreThuente s => exact s.attends ho r asked base

/-- The questions of a call are those of its trials, and it heeds the answers. -/
theorem LineSearch.exists_trials (s : LineSearch α) {l l' : Ledger α (Vector α n)}
    {result : Except (Fault α) (Step α (Vector α n))}
    (h : (s.search o.recorded r asked).perform l = (result, l')) :
    ∃ trials : List (Trial α),
      l'.requests.toList = l.requests.toList ++ trials.flatMap (Trial.asks r) ∧
        r.Heeds o trials result := by
  have hstart : r.Pending o l.requests.toList [] l := ⟨[], by simp, by simp⟩
  have hleaves := s.attends ho r asked _ l hstart
  rw [show (s.search o.recorded r asked).run.run l = (result, l') from h] at hleaves
  cases result with
  | error f =>
    obtain ⟨hf, trials, hall, hl⟩ | ⟨t, ht, trials, hall, hl⟩ := hleaves
    · refine ⟨trials, by simpa using hl, .of_defined (fun t ht => ?_) fun c hc => ?_⟩
      · exact Trial.defined_of_check (hall t ht)
      · cases hc
        cases hf
    · refine ⟨trials ++ [t], by simpa using hl, .of_last (fun u hu => ?_) ht rfl⟩
      exact Trial.defined_of_check (hall u hu)
  | ok step =>
    obtain ⟨trials, hall, hl⟩ := hleaves
    refine ⟨trials, by simpa using hl, .of_defined (fun t ht => ?_) fun c hc => ?_⟩
    · exact Trial.defined_of_check (hall t ht)
    · cases hc

end Searches

end Downhill
