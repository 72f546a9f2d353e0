import Downhill.Proofs.Lockstep
import Downhill.Proofs.Problem.Responsive

/-! Where differences are filled in. A run fills in the derivatives that a problem lacks over the
counted evaluations; a problem of its own fills them in below the count. Both use the same formulas
on the same functions and hear the same, and only what is counted differs. -/
namespace Downhill
variable {α V M β γ : Type}

theorem Eval.ofExcept_bind (e : Except (Fault α) γ) (f : γ → Except (Fault α) β) :
    (ofExcept (e >>= f) : Eval α V β) = ofExcept e >>= fun b => ofExcept (f b) := by
  cases e <;> rfl

/-- Whatever the account is, the computation ends as `e` does, and leaves an account related to the
one that it found. -/
def Tells (L : Ledger α V → Ledger α V → Prop) (c : Eval α V β) (e : Except (Fault α) β) : Prop :=
  Lockstep L c (Eval.ofExcept e)

namespace Tells
variable {L : Ledger α V → Ledger α V → Prop}

theorem pure (b : β) : Tells L (pure b) (pure b) := Lockstep.pure b

theorem ofExcept (e : Except (Fault α) β) : Tells L (Eval.ofExcept e) e := Eval.lockstep_ofExcept e

theorem bind {c : Eval α V γ} {e : Except (Fault α) γ} {f : γ → Eval α V β}
    {g : γ → Except (Fault α) β} (hc : Tells L c e) (hf : ∀ b, Tells L (f b) (g b)) :
    Tells L (c >>= f) (e >>= g) := by
  rw [Tells, Eval.ofExcept_bind]
  exact Lockstep.bind hc hf

theorem ite {φ : Prop} [Decidable φ] {c c' : Eval α V β} {e e' : Except (Fault α) β}
    (h : Tells L c e) (h' : Tells L c' e') :
    Tells L (if φ then c else c') (if φ then e else e') := by
  split_ifs
  · exact h
  · exact h'

theorem ofFnM {n : ℕ} {f : Fin n → Eval α V β} {g : Fin n → Except (Fault α) β}
    (h : ∀ i, Tells L (f i) (g i)) : Tells L (Vector.ofFnM f) (Vector.ofFnM g) := by
  induction n with
  | zero =>
    rw [Vector.ofFnM_zero, Vector.ofFnM_zero]
    exact pure _
  | succ n ih =>
    rw [Vector.ofFnM_succ, Vector.ofFnM_succ]
    exact bind (ih fun i => h i.castSucc) fun _ => bind (h _) fun _ => pure _

/-- What comes first leaves related accounts and answers nothing. -/
theorem after {d : Eval α V Unit} {c : Eval α V β} {e : Except (Fault α) β}
    (hd : Tells L d (Pure.pure ())) (hc : Tells L c e) : Tells L (d >>= fun _ => c) e :=
  bind (g := fun _ => e) hd fun _ => hc

end Tells

/-- The two accounts have the same questions and remarks, and if `compared` holds they count as many
values. -/
structure Ledger.Accords (compared : Prop) (l l' : Ledger α V) : Prop where
  requests : l'.requests = l.requests
  remarks : l'.remarks = l.remarks
  values : compared → l'.evaluations.values = l.evaluations.values

section Counts
variable {compared : Prop}

open Ledger (Accords)

theorem lockstep_request (r : Request V) :
    Lockstep (Accords compared) (Eval.request r : Eval α V Unit) (Eval.request r) :=
  fun _ _ h => ⟨rfl, congrArg (·.push r) h.requests, h.remarks, h.values⟩

theorem lockstep_remark (r : Remark α) :
    Lockstep (Accords compared) (Eval.remark r : Eval α V Unit) (Eval.remark r) :=
  fun _ _ h => ⟨rfl, h.requests, congrArg (·.push r) h.remarks, h.values⟩

theorem lockstep_countValue :
    Lockstep (Accords compared) (Eval.countValue : Eval α V Unit) Eval.countValue :=
  fun _ _ h => ⟨rfl, h.requests, h.remarks, fun hc => congrArg (· + 1) (h.values hc)⟩

theorem tells_countValue (hno : ¬ compared) :
    Tells (Accords compared) (Eval.countValue : Eval α V Unit) (pure ()) :=
  fun _ _ h => ⟨rfl, h.requests, h.remarks, fun hc => absurd hc hno⟩

theorem tells_countGradient :
    Tells (Accords compared) (Eval.countGradient : Eval α V Unit) (pure ()) :=
  fun _ _ h => ⟨rfl, h.requests, h.remarks, h.values⟩

/-- Gradients and Hessians that are counted on one side only. -/
theorem Tells.lockstep_count {c : Eval α V β} {e : Except (Fault α) β} {count : Eval α V Unit}
    (hcount : count = Eval.countGradient ∨ count = Eval.countHessian)
    (h : Tells (Accords compared) c e) :
    Lockstep (Accords compared) c (count >>= fun _ => Eval.ofExcept e) := by
  have hfirst : Lockstep (Accords compared) (Pure.pure () : Eval α V Unit) count := by
    rcases hcount with rfl | rfl <;> exact fun _ _ h => ⟨rfl, h.requests, h.remarks, h.values⟩
  have hboth := Lockstep.bind hfirst fun _ => h
  rwa [pure_bind] at hboth

/-- The same count on both sides. -/
theorem lockstep_count {c c' : Eval α V β} {count : Eval α V Unit}
    (hcount : count = Eval.countGradient ∨ count = Eval.countHessian)
    (h : Lockstep (Accords compared) c c') :
    Lockstep (Accords compared) (count >>= fun _ => c) (count >>= fun _ => c') := by
  refine .bind ?_ fun _ => h
  rcases hcount with rfl | rfl <;> exact fun _ _ h => ⟨rfl, h.requests, h.remarks, h.values⟩

end Counts

section Vectors
variable [Scalar α] {n : ℕ}

namespace Difference
variable {L : Ledger α V → Ledger α V → Prop} {f : Vector α n → Eval α V α}
  {f' : Vector α n → Except (Fault α) α} {g : Vector α n → Eval α V (Vector α n)}
  {g' : Vector α n → Except (Fault α) (Vector α n)} (eps : α) (x : Vector α n)

/-- Differences of a function that is evaluated in two ways. -/
theorem tells_gradientAt (hf : ∀ v, Tells L (f v) (f' v)) :
    Tells L (Difference.gradientAt f eps x : Eval α V (Vector α n))
      (Difference.gradientAt f' eps x) := by
  rw [gradientAt_vector, gradientAt_vector]
  exact .ofFnM fun i => .bind (hf _) fun _ => .bind (hf _) fun _ => .pure _

theorem tells_hessianAt (hf : ∀ v, Tells L (f v) (f' v)) :
    Tells L (Difference.hessianAt f eps x : Eval α V (Matrix α n))
      (Difference.hessianAt f' eps x) := by
  rw [hessianAt_vector, hessianAt_vector]
  refine .bind (hf x) fun middle => .bind (.ofFnM fun i => .ofFnM fun j => ?_) fun _ => .pure _
  refine .ite (.pure _) (.ite ?_ ?_)
  · exact .bind (hf _) fun _ => .bind (hf _) fun _ => .pure _
  · exact .bind (hf _) fun _ => .bind (hf _) fun _ => .bind (hf _) fun _ => .bind (hf _) fun _ =>
      .pure _

theorem tells_hessianOfGradientAt (hg : ∀ v, Tells L (g v) (g' v)) :
    Tells L (Difference.hessianOfGradientAt g eps x : Eval α V (Matrix α n))
      (Difference.hessianOfGradientAt g' eps x) := by
  rw [hessianOfGradientAt_vector, hessianOfGradientAt_vector]
  exact .bind (.ofFnM fun i => .bind (hg _) fun _ => .bind (hg _) fun _ => .pure _) fun _ => .pure _

end Difference

namespace Problem
variable (p : Problem α (Vector α n) (Matrix α n))

/-- A vector has the length that is expected of a gradient. -/
theorem counted_gradient (x : Vector α n) :
    (p.counted n).gradient x = Eval.countGradient >>= fun _ => Eval.ofExcept (p.gradient x) := by
  have hfits : ∀ g : Vector α n, Space.shape g = [n] := fun _ => rfl
  simp only [counted, hfits, if_true, bind_pure]

theorem counted_hessian (x : Vector α n) :
    (p.counted n).hessian x = Eval.countHessian >>= fun _ => Eval.ofExcept (p.hessian x) := by
  have hfits : ∀ m : Matrix α n, Curved.shape m = [n, n] := fun _ => rfl
  simp only [counted, hfits, if_true, bind_pure]

variable {p}

theorem tells_counted_value (h : p.hasGradient = false) (x : Vector α n) :
    Tells (Ledger.Accords (p.hasGradient = true)) ((p.counted n).value x) (p.value x) :=
  .after (tells_countValue (by simp [h])) (.ofExcept _)

theorem tells_counted_gradient (x : Vector α n) :
    Tells (Ledger.Accords (p.hasGradient = true)) ((p.counted n).gradient x) (p.gradient x) := by
  rw [counted_gradient]
  exact .after tells_countGradient (.ofExcept _)

variable (p) (eps secondEps : α)

/-- Differences are filled in once. -/
theorem filled_filled (eps' secondEps' : α) :
    (p.filled eps secondEps).filled eps' secondEps' = p.filled eps secondEps :=
  rfl

theorem lockstep_differentiable_value (needHessian : Bool) (x : Vector α n) :
    Lockstep (Ledger.Accords (p.hasGradient = true)) ((p.differentiable n needHessian).value x)
      (((p.filled eps secondEps).counted n).value x) := by
  have hboth : Lockstep (Ledger.Accords (p.hasGradient = true)) ((p.counted n).value x)
      (((p.filled eps secondEps).counted n).value x) :=
    .bind lockstep_countValue fun _ => Eval.lockstep_ofExcept _
  unfold differentiable Oracle.differentiable
  split_ifs <;> exact hboth

theorem gradient_differentiable_of_some (needHessian : Bool) (h : p.hasGradient = true) :
    (p.differentiable n needHessian).gradient = (p.counted n).gradient := by
  unfold differentiable Oracle.differentiable
  split_ifs
  · rfl
  · exact if_pos h

theorem gradient_differentiable_of_none (needHessian : Bool) (h : p.hasGradient = false) :
    (p.differentiable n needHessian).gradient =
      Difference.gradientAt (p.counted n).value Difference.defaultStep := by
  have hoffers : ¬ (p.counted n).offers needHessian = true := by
    simp [Oracle.offers, counted, h]
  rw [differentiable, Oracle.differentiable, if_neg hoffers]
  exact if_neg (ne_true_of_eq_false h)

theorem hessian_differentiable_of_some (h : p.hasHessian = true) :
    (p.differentiable n true).hessian = (p.counted n).hessian := by
  unfold differentiable Oracle.differentiable
  split_ifs
  · rfl
  · exact if_pos h

theorem hessian_differentiable_of_none (h : p.hasHessian = false) :
    (p.differentiable n true).hessian =
      if p.hasGradient then
        Difference.hessianOfGradientAt (p.counted n).gradient Difference.defaultStep
      else Difference.hessianAt (p.counted n).value Difference.defaultSecondStep := by
  have hoffers : ¬ (p.counted n).offers true = true := by
    simp [Oracle.offers, counted, h]
  rw [differentiable, Oracle.differentiable, if_neg hoffers]
  exact if_neg (ne_true_of_eq_false h)

/-- The gradient of a problem with everything filled in: its own, or differences of its values. -/
theorem gradient_filled (x : Vector α n) :
    (p.filled eps secondEps).gradient x =
      if p.hasGradient then p.gradient x else Difference.gradientAt p.value eps x := by
  rw [hasGradient, gradient, gradient, filled]
  cases p.gradient? <;> rfl

theorem hessian_filled (x : Vector α n) :
    (p.filled eps secondEps).hessian x =
      if p.hasHessian then p.hessian x
      else if p.hasGradient then Difference.hessianOfGradientAt p.gradient eps x
      else Difference.hessianAt p.value secondEps x := by
  unfold hasHessian hasGradient hessian gradient filled
  cases p.hessian? <;> cases p.gradient? <;> rfl

theorem lockstep_differentiable_gradient (needHessian : Bool) (x : Vector α n) :
    Lockstep (Ledger.Accords (p.hasGradient = true)) ((p.differentiable n needHessian).gradient x)
      (((p.filled Difference.defaultStep secondEps).counted n).gradient x) := by
  rw [counted_gradient, gradient_filled]
  by_cases h : p.hasGradient = true
  · rw [gradient_differentiable_of_some p needHessian h, counted_gradient, if_pos h]
    exact lockstep_count (.inl rfl) (Eval.lockstep_ofExcept _)
  · have hnone := Bool.eq_false_iff.mpr h
    rw [gradient_differentiable_of_none p needHessian hnone, if_neg h]
    exact (Difference.tells_gradientAt _ x (tells_counted_value hnone)).lockstep_count (.inl rfl)

theorem lockstep_differentiable_hessian (x : Vector α n) :
    Lockstep (Ledger.Accords (p.hasGradient = true)) ((p.differentiable n true).hessian x)
      (((p.filled Difference.defaultStep Difference.defaultSecondStep).counted n).hessian x) := by
  rw [counted_hessian, hessian_filled]
  by_cases h : p.hasHessian = true
  · rw [hessian_differentiable_of_some p h, counted_hessian, if_pos h]
    exact lockstep_count (.inr rfl) (Eval.lockstep_ofExcept _)
  · rw [hessian_differentiable_of_none p (Bool.eq_false_iff.mpr h), if_neg h]
    by_cases hg : p.hasGradient = true
    · rw [if_pos hg, if_pos hg]
      exact (Difference.tells_hessianOfGradientAt _ x
        tells_counted_gradient).lockstep_count (.inr rfl)
    · rw [if_neg hg, if_neg hg]
      exact (Difference.tells_hessianAt _ x
        (tells_counted_value (Bool.eq_false_iff.mpr hg))).lockstep_count (.inr rfl)

/-- The problem with differences of the usual steps filled in. -/
def completed : Problem α (Vector α n) (Matrix α n) :=
  p.filled Difference.defaultStep Difference.defaultSecondStep

theorem lockstep_work_value (needHessian : Bool) (x : Vector α n) :
    Lockstep (Ledger.Accords (p.hasGradient = true)) ((p.work n needHessian).value x)
      ((p.completed.work n needHessian).value x) :=
  .bind (lockstep_request _) fun _ => p.lockstep_differentiable_value _ _ needHessian x

theorem lockstep_work_gradient (needHessian : Bool) (x : Vector α n) :
    Lockstep (Ledger.Accords (p.hasGradient = true)) ((p.work n needHessian).gradient x)
      ((p.completed.work n needHessian).gradient x) :=
  .bind (lockstep_request _) fun _ => p.lockstep_differentiable_gradient _ needHessian x

theorem lockstep_work_hessian (x : Vector α n) :
    Lockstep (Ledger.Accords (p.hasGradient = true)) ((p.work n true).hessian x)
      ((p.completed.work n true).hessian x) :=
  .bind (lockstep_request _) fun _ => p.lockstep_differentiable_hessian x

end Problem

end Vectors

end Downhill
