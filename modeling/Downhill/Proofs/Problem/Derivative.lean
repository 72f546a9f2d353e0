import Downhill.Proofs.Problem.Quiet

/-! The gradient that a run hears of is that of the problem, or the one of central differences of
its value where it has none: the account and the checks of the extents change no answer. -/
namespace Downhill
variable {α V M β γ : Type}

namespace Eval

/-- The answer of a computation on an empty account. -/
def answer (c : Eval α V β) : Except (Fault α) β := c.start.1

@[simp] theorem answer_pure (b : β) : (pure b : Eval α V β).answer = .ok b := rfl

@[simp] theorem answer_throw (f : Fault α) : (throw f : Eval α V β).answer = .error f := rfl

/-- The second part does not see what the first one has entered. -/
theorem answer_bind (c : Eval α V γ) {f : γ → Eval α V β} (hf : ∀ b, (f b).Quiet) :
    (c >>= f).answer = c.answer >>= fun b => (f b).answer := by
  rw [answer, start, perform_bind, answer, start]
  rcases c.perform {} with ⟨e | b, l⟩
  · rfl
  · exact (hf b).answer l

theorem answer_ofFnM {n : ℕ} {f : Fin n → Eval α V β} (hf : ∀ i, (f i).Quiet) :
    (Vector.ofFnM f).answer = Vector.ofFnM fun i => (f i).answer := by
  induction n with
  | zero => rw [Vector.ofFnM_zero, Vector.ofFnM_zero]; rfl
  | succ n ih =>
    rw [Vector.ofFnM_succ, Vector.ofFnM_succ, answer_bind _ fun as => (hf _).bind fun a => .pure _,
      ih fun i => hf i.castSucc]
    congr
    funext as
    exact answer_bind _ fun a => .pure _

end Eval

namespace Difference
variable [Scalar α]

theorem answer_slope {n : ℕ} {f : Vector α n → Eval α V α} (hf : ∀ v, (f v).Quiet) (eps : α)
    (x : Vector α n) (i : Fin n) :
    (slope f eps x i).answer = slope (fun v => (f v).answer) eps x i := by
  refine (Eval.answer_bind _ fun up => (hf _).bind fun down => .pure _).trans ?_
  exact congrArg _ (funext fun up => Eval.answer_bind _ fun down => .pure _)

variable [Space α V]

/-- Central differences in an evaluation are those of the answers. -/
theorem gradientAt_of_answer {f : V → Eval α V α} (hf : ∀ x, (f x).Quiet) {eps : α} {x g : V}
    (h : (Difference.gradientAt f eps x).answer = .ok g) :
    Difference.gradientAt (fun x => (f x).answer) eps x = .ok g := by
  unfold Difference.gradientAt at h ⊢
  split_ifs at h ⊢ with hempty hwide
  · cases h
  · rw [Eval.answer_bind _ fun _ => .throw _] at h
    obtain ⟨_, -, h⟩ := bind_eq_ok_iff.mp h
    cases h
  · have hslope : ∀ i, (slope (fun v => f (Space.like x v)) eps (Space.coordinates x) i).answer =
        slope (fun v => (f (Space.like x v)).answer) eps (Space.coordinates x) i :=
      answer_slope (fun v => hf _) eps _
    rw [Eval.answer_bind _ fun _ => .pure _, gradient,
      Eval.answer_ofFnM fun i => quiet_slope (fun v => hf _) eps _ i] at h
    simp only [hslope] at h
    exact h

end Difference

namespace Problem
variable [Scalar α] [Space α V] [Curved α V M] (p : Problem α V M) (n : ℕ)

omit [Scalar α] in
theorem gradient_of_counted {x g : V} (h : (p.counted n).gradientAt x = .ok g) :
    p.gradient x = .ok g := by
  change ((Eval.countGradient >>= fun _ => Eval.ofExcept (p.gradient x) >>= fun g =>
    if Space.shape g = [n] then pure g
    else throw (.dimension (.gradientShape (Space.shape g) n)) : Eval α V V)).answer = .ok g at h
  have hfits : ∀ g, (if Space.shape g = [n] then pure g
      else throw (.dimension (.gradientShape (Space.shape g) n)) : Eval α V V).Quiet := by
    intro g
    split_ifs
    · exact .pure g
    · exact .throw _
  rw [Eval.answer_bind _ fun _ => .bind (.ofExcept _) hfits, Eval.answer_bind _ hfits] at h
  obtain ⟨_, -, h⟩ := bind_eq_ok_iff.mp h
  obtain ⟨g', hg, h⟩ := bind_eq_ok_iff.mp h
  split_ifs at h <;> cases h
  exact hg

/-- A gradient of a run is the one that the problem has, or that of central differences. -/
theorem gradient_of_differentiable {needHessian : Bool} {x g : V}
    (h : (p.differentiable n needHessian).gradientAt x = .ok g) :
    (p.hasGradient = true → p.gradient x = .ok g) ∧
    (p.hasGradient = false →
      Difference.gradientAt p.value Difference.defaultStep x = .ok g) := by
  have hfilled : (p.counted n).filled.gradient = if p.hasGradient then (p.counted n).gradient
      else Difference.gradientAt (p.counted n).value Difference.defaultStep := rfl
  unfold differentiable Oracle.differentiable at h
  split_ifs at h with hoffers
  · have hhas : p.hasGradient = true := by
      rw [Oracle.offers, Bool.and_eq_true] at hoffers
      exact hoffers.1
    exact ⟨fun _ => p.gradient_of_counted n h, fun hno => absurd hhas (by simp [hno])⟩
  · rw [Oracle.gradientAt, hfilled] at h
    refine ⟨fun hhas => ?_, fun hno => ?_⟩
    · rw [if_pos hhas] at h
      exact p.gradient_of_counted n h
    · rw [if_neg (by simp [hno])] at h
      exact Difference.gradientAt_of_answer (p.quiet_counted n).value h

end Problem

end Downhill
