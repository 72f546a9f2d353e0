import Downhill.Direction.Basic
import Downhill.Proofs.Exact.Root
import Downhill.Proofs.Replies

/-! What a run asks of a strategy so that it is not broken off. From a state with some invariant a
call succeeds and keeps the invariant, where the gradient is finite and not zero; only a direction
may be refused, by a numerical fault. Where the gradient is zero a strategy can stall: it gives a
direction, but no step can be made along it. -/
namespace Downhill
variable {σ K M : Type} [ExactField K] {n : ℕ}

open Exact

namespace Act
variable {α V β γ : Type} {I : σ → Prop} {P : σ × Ledger α V → Prop} {f : γ → Act σ α V β}
  {Q : Except (Fault α) β → σ × Ledger α V → Prop}

/-- The state is known for what follows. -/
theorem ensures_state_bind {f : σ → Act σ α V β}
    (h : ∀ s, I s → Ensures (fun t => I t.1) (f s) Q) :
    Ensures (fun t => I t.1) (state >>= f) Q :=
  Surely.bind (R := fun s t => I s ∧ I t.1) (fun _ ht => ⟨ht, ht⟩) fun s => .of_fact (h s)

theorem ensures_ofExcept_bind {e : Except (Fault α) γ} {b : γ} (he : e = .ok b)
    (h : Ensures P (f b) Q) : Ensures P (ofExcept e >>= f) Q := by
  subst he
  exact h

theorem ensures_ofEval {c : Eval α V β} {R : β → Prop} (h : Replies c R) :
    Ensures (fun t => I t.1) (ofEval c : Act σ α V β) (Surely fun b t => R b ∧ I t.1) := by
  intro t ht
  obtain ⟨b, l, hc, hb⟩ := h.exists_answer t.2
  have hrun : (ofEval c : Act σ α V β).run.run t = (.ok b, t.1, l) := by
    change ((c.run.run t.2).1, t.1, (c.run.run t.2).2) = _
    rw [hc]
  rw [hrun]
  exact ⟨hb, ht⟩

end Act

/-- The strategy keeps the invariant `I`, and raises none but numerical faults at gradients other
than zero. -/
structure Strategy.Reliable (s : Strategy σ (Exact K) (Vector (Exact K) n) M)
    (o : Oracle (Exact K) (Vector (Exact K) n) M) (I : σ → Prop) : Prop where
  compute : ∀ x g, x.gradient = lift g →
    Ensures (fun t => I t.1) (s.compute o x) (Mildly (fun t => I t.1) fun _ t => I t.1)
  reset : Ensures (fun t => I t.1) s.reset (Surely fun _ t => I t.1)
  initialStep : ∀ g d : Fin n → K, g ≠ 0 → g ⬝ᵥ d < 0 →
    Ensures (fun t => I t.1) (s.initialStep (lift g) (lift d)) (Surely fun asked t =>
      I t.1 ∧ ∀ a, asked = some a → 0 < a ∧ Scalar.isFinite a = true)
  update : ∀ (step : Vector (Exact K) n) (g g' d : Fin n → K) (alpha : Exact K), g ≠ 0 →
    Ensures (fun t => I t.1) (s.update step (lift g' - lift g) (lift g') alpha (lift d))
      (Surely fun _ t => I t.1)

/-- At a finite point where the gradient is zero the strategy has a finite direction. After a reset
the first step along it raises the fault `f`; or it is left to the search, which refuses a direction
of slope zero with that fault. -/
structure Strategy.Stalls (s : Strategy σ (Exact K) (Vector (Exact K) n) M)
    (o : Oracle (Exact K) (Vector (Exact K) n) M) (I J : σ → Prop) (f : Fault (Exact K)) :
    Prop where
  raised : f.isNumerical = false
  compute : ∀ x, Space.finite x.point = true → x.gradient = lift 0 →
    Ensures (fun t => I t.1) (s.compute o x) (Surely fun d t => I t.1 ∧ ∃ v, d = lift v)
  reset : Ensures (fun t => I t.1) s.reset (Surely fun _ t => J t.1)
  initialStep : Ensures (fun t => J t.1) (s.initialStep (lift 0) (lift 0)) fun r _ =>
    r = .error f ∨ r = .ok none ∧ f = .notDescent 0

section CautiousStep
variable {g : Fin n → K}

theorem quotient_number {a b : K} (h : b ≠ 0) :
    quotient (number a) (number b) = .ok (number (a / b)) := by
  simp [quotient, h, number_div]

theorem quotient_zero (a : Exact K) : quotient a (number 0) = .error .zeroDivision := by
  simp [quotient]

variable [SoundRoot K]

theorem cautiousStep_lift (hg : g ≠ 0) :
    cautiousStep (lift g) = .ok (number (min 1 (1 / ExactField.root (g ⬝ᵥ g)))) := by
  rw [cautiousStep, Space.norm_vector, norm_lift, one_eq,
    quotient_number (root_dotProduct_pos hg).ne']
  exact congrArg Except.ok smaller_number

theorem exists_cautiousStep (hg : g ≠ 0) :
    ∃ a : K, 0 < a ∧ cautiousStep (lift g) = .ok (number a) :=
  ⟨_, lt_min one_pos (one_div_pos.mpr (root_dotProduct_pos hg)), cautiousStep_lift hg⟩

/-- The length of the zero vector does not divide. -/
theorem cautiousStep_zero : cautiousStep (lift (0 : Fin n → K)) = .error .zeroDivision := by
  rw [cautiousStep, Space.norm_vector, norm_lift_zero, quotient_zero]
  rfl

end CautiousStep

end Downhill
