import Downhill.Linear.Euclidean
import Downhill.Problem.Basic
import Downhill.Proofs.Ensures

/-! Evaluations that do not look at the account. A problem is a function of the point, so what a
run hears of it is always the same, whether a derivative is the problem's own or comes from
differences; and nothing but the question itself is entered among the requests. -/
namespace Downhill
variable {α V M β γ : Type}

namespace Eval

/-- The answer is the same on every account, and no request is entered. -/
structure Quiet (c : Eval α V β) : Prop where
  answer : ∀ l, (c.perform l).1 = c.start.1
  requests : ∀ l, (c.perform l).2.requests = l.requests

namespace Quiet

theorem pure (b : β) : Quiet (pure b : Eval α V β) := ⟨fun _ => rfl, fun _ => rfl⟩

theorem throw (f : Fault α) : Quiet (throw f : Eval α V β) := ⟨fun _ => rfl, fun _ => rfl⟩

theorem ofExcept (e : Except (Fault α) β) : Quiet (ofExcept e : Eval α V β) :=
  ⟨fun _ => rfl, fun _ => rfl⟩

theorem countValue : Quiet (countValue : Eval α V Unit) := ⟨fun _ => rfl, fun _ => rfl⟩

theorem countGradient : Quiet (countGradient : Eval α V Unit) := ⟨fun _ => rfl, fun _ => rfl⟩

theorem bind {c : Eval α V γ} {f : γ → Eval α V β} (hc : Quiet c) (hf : ∀ b, Quiet (f b)) :
    Quiet (c >>= f) := by
  constructor
  · intro l
    have h := hc.answer l
    rw [start, perform_bind, perform_bind]
    simp only [start] at h
    rcases hl : c.perform l with ⟨r, l'⟩
    rcases h0 : c.perform {} with ⟨r0, l0⟩
    obtain rfl : r = r0 := by simpa [hl, h0] using h
    cases r with
    | ok b => exact ((hf b).answer l').trans ((hf b).answer l0).symm
    | error e => rfl
  · intro l
    have h := hc.requests l
    rw [perform_bind]
    rcases hl : c.perform l with ⟨r, l'⟩
    rw [hl] at h
    cases r with
    | ok b => exact ((hf b).requests l').trans h
    | error e => exact h

theorem map {c : Eval α V γ} (f : γ → β) (hc : Quiet c) : Quiet (f <$> c) := by
  rw [map_eq_pure_bind]
  exact hc.bind fun b => pure (f b)

theorem ofFnM {n : ℕ} {f : Fin n → Eval α V β} (h : ∀ i, Quiet (f i)) :
    Quiet (Vector.ofFnM f) := by
  induction n with
  | zero =>
    rw [Vector.ofFnM_zero]
    exact pure _
  | succ n ih =>
    rw [Vector.ofFnM_succ]
    exact (ih fun i => h i.castSucc).bind fun as => (h _).bind fun a => pure _

theorem forIn {xs : List γ} {f : γ → β → Eval α V (ForInStep β)} (h : ∀ x b, Quiet (f x b))
    (b : β) : Quiet (forIn xs b f) := by
  induction xs generalizing b with
  | nil => exact pure b
  | cons x xs ih =>
    rw [List.forIn_cons]
    refine (h x b).bind fun r => ?_
    cases r with
    | done b => exact pure b
    | yield b => exact ih b

end Quiet

end Eval

namespace Oracle

/-- Value and gradient are functions of the point. -/
structure Quiet (o : Oracle α V M) : Prop where
  value : ∀ x, (o.value x).Quiet
  gradient : ∀ x, (o.gradient x).Quiet

/-- What the oracle says of the value at a point. -/
def valueAt (o : Oracle α V M) (x : V) : Except (Fault α) α := (o.value x).start.1

/-- What the oracle says of the gradient at a point. -/
def gradientAt (o : Oracle α V M) (x : V) : Except (Fault α) V := (o.gradient x).start.1

/-- An iterate with the value and the gradient that the oracle has there. -/
def Faithful (o : Oracle α V M) (x : Iterate α V) : Prop :=
  o.valueAt x.point = .ok x.value ∧ o.gradientAt x.point = .ok x.gradient

/-- A recorded question has the answer of the oracle and is entered. -/
theorem Quiet.perform_value {o : Oracle α V M} (h : o.Quiet) (x : V) (l : Ledger α V) :
    ((o.recorded.value x).perform l).1 = o.valueAt x ∧
      ((o.recorded.value x).perform l).2.requests = l.requests.push (.value x) := by
  change ((Eval.request _ >>= fun _ => o.value x : Eval α V α).perform l).1 = _ ∧ _
  rw [Eval.perform_bind]
  exact ⟨(h.value x).answer _, (h.value x).requests _⟩

theorem Quiet.perform_gradient {o : Oracle α V M} (h : o.Quiet) (x : V) (l : Ledger α V) :
    ((o.recorded.gradient x).perform l).1 = o.gradientAt x ∧
      ((o.recorded.gradient x).perform l).2.requests = l.requests.push (.gradient x) := by
  change ((Eval.request _ >>= fun _ => o.gradient x : Eval α V V).perform l).1 = _ ∧ _
  rw [Eval.perform_bind]
  exact ⟨(h.gradient x).answer _, (h.gradient x).requests _⟩

theorem Quiet.yields_value {o : Oracle α V M} (h : o.Quiet) (x : V) :
    Yields (o.recorded.value x) fun f => o.valueAt x = .ok f := by
  intro l _
  have hvalue := (h.perform_value x l).1
  rcases hr : ((o.recorded.value x).run.run l).1 with e | f
  · trivial
  · exact hvalue.symm.trans hr

theorem Quiet.yields_gradient {o : Oracle α V M} (h : o.Quiet) (x : V) :
    Yields (o.recorded.gradient x) fun g => o.gradientAt x = .ok g := by
  intro l _
  have hgradient := (h.perform_gradient x l).1
  rcases hr : ((o.recorded.gradient x).run.run l).1 with e | g
  · trivial
  · exact hgradient.symm.trans hr

end Oracle

namespace Difference
variable [Scalar α] [Space α V]

theorem quiet_sides {f : V → Eval α V β} (h : ∀ x, (f x).Quiet) (eps : α) (x : V) (place : ℕ) :
    (sides f eps x place).Quiet :=
  (h _).bind fun _ => (h _).bind fun _ => .pure _

omit [Space α V] in
theorem quiet_slope {n : ℕ} {f : Vector α n → Eval α V α} (h : ∀ x, (f x).Quiet) (eps : α)
    (x : Vector α n) (i : Fin n) : (slope f eps x i).Quiet :=
  (h _).bind fun _ => (h _).bind fun _ => .pure _

/-- Differences of a function of the point are one, too. -/
theorem quiet_gradientAt {f : V → Eval α V α} (h : ∀ x, (f x).Quiet) (eps : α) (x : V) :
    (Difference.gradientAt f eps x).Quiet := by
  unfold Difference.gradientAt
  split_ifs
  · exact .throw _
  · refine .bind (.forIn (fun place _ => ?_) _) fun _ => .throw _
    exact .bind (.map _ (quiet_sides h eps x place)) fun _ => .pure _
  · exact (Eval.Quiet.ofFnM fun i => quiet_slope (fun v => h _) eps _ i).bind fun _ => .pure _

end Difference

namespace Problem

theorem quiet_oracle (p : Problem α V M) : p.oracle.Quiet :=
  ⟨fun _ => .ofExcept _, fun _ => .ofExcept _⟩

theorem quiet_counted [Space α V] [Curved α V M] (p : Problem α V M) (n : ℕ) :
    (p.counted n).Quiet := by
  refine ⟨fun x => .bind .countValue fun _ => .ofExcept _, fun x => ?_⟩
  refine .bind .countGradient fun _ => .bind (.ofExcept _) fun g => ?_
  split_ifs
  · exact .pure g
  · exact .throw _

variable [Scalar α] [Space α V] [Curved α V M]

/-- What a run works on before its questions are recorded. -/
def differentiable (p : Problem α V M) (n : ℕ) (needHessian : Bool) : Oracle α V M :=
  (p.counted n).differentiable needHessian

theorem quiet_differentiable (p : Problem α V M) (n : ℕ) (needHessian : Bool) :
    (p.differentiable n needHessian).Quiet := by
  unfold differentiable Oracle.differentiable
  split_ifs
  · exact p.quiet_counted n
  · refine ⟨(p.quiet_counted n).value, fun x => ?_⟩
    have hg : (p.counted n).filled.gradient =
        if (p.counted n).hasGradient then (p.counted n).gradient
        else Difference.gradientAt (p.counted n).value Difference.defaultStep := rfl
    rw [hg]
    split_ifs
    · exact (p.quiet_counted n).gradient x
    · exact Difference.quiet_gradientAt (p.quiet_counted n).value _ x

@[simp] theorem valueAt_differentiable (p : Problem α V M) (n : ℕ) (needHessian : Bool) (x : V) :
    (p.differentiable n needHessian).valueAt x = p.value x := by
  unfold differentiable Oracle.differentiable
  split_ifs <;> rfl

/-- A gradient that a problem has is not replaced, and a vector has the length that is expected. -/
theorem gradientAt_differentiable {n : ℕ} (p : Problem α (Vector α n) (Matrix α n))
    (needHessian : Bool) (h : p.hasGradient = true) (x : Vector α n) :
    (p.differentiable n needHessian).gradientAt x = p.gradient x := by
  have hcounted : (p.counted n).gradientAt x = p.gradient x := by
    have hfits : ∀ g : Vector α n, Space.shape g = [n] := fun _ => rfl
    simp only [Oracle.gradientAt, counted, hfits, if_true]
    cases p.gradient x <;> rfl
  have hfilled : (p.counted n).filled.gradient = (p.counted n).gradient := if_pos h
  unfold differentiable Oracle.differentiable
  split_ifs
  · exact hcounted
  · rw [Oracle.gradientAt, hfilled]
    exact hcounted

end Problem

end Downhill
