import Downhill.Proofs.Descent.Opening
import Downhill.Proofs.Exact.Matrix
import Downhill.Proofs.Problem.Responsive

/-! Problems whose value and derivatives are functions of the field. What a run hears at a vector of
the field is what these functions say there, so it opens at every such vector. -/
open Matrix

namespace Downhill
variable {σ ρ K : Type} [ExactField K] {n : ℕ}

open Exact

/-- A start is open if it has a number for its value and a vector of the field for its gradient. -/
theorem Descent.opened_of_replies
    {d : Descent σ ρ (Exact K) (Vector (Exact K) n) (Matrix (Exact K) n)} {x g : Fin n → K} {f : K}
    (hvalue : Replies ((d.work n).value (lift x)) fun a => a = number f)
    (hgradient : Replies ((d.work n).gradient (lift x)) fun v => v = lift g) :
    d.opened (lift x) = .ok (.inl ⟨lift x, number f, lift g⟩) := by
  have hopen : Replies (openAt (d.work n) (lift x)) fun r =>
      r = .inl ⟨lift x, number f, lift g⟩ := by
    refine .ite (fun _ => ?_) fun hno => absurd (allFinite_lift x) hno
    refine .bind hvalue fun a ha => .bind hgradient fun v hv => ?_
    subst ha hv
    refine .ite (fun _ => .pure rfl) fun hno => absurd ?_ hno
    exact Bool.and_eq_true_iff.mpr ⟨rfl, allFinite_lift g⟩
  obtain ⟨_, l, hrun, rfl⟩ := hopen.exists_answer {}
  exact congrArg Prod.fst hrun

/-- At vectors of the field the value of the problem is `f` and its gradient, which it has, is
`g`. -/
structure Problem.Given (p : Problem (Exact K) (Vector (Exact K) n) (Matrix (Exact K) n))
    (f : (Fin n → K) → K) (g : (Fin n → K) → Fin n → K) : Prop where
  value : ∀ x, p.value (lift x) = .ok (number (f x))
  hasGradient : p.hasGradient = true
  gradient : ∀ x, p.gradient (lift x) = .ok (lift (g x))

/-- The problem has a Hessian, which is `h` at vectors of the field. -/
structure Problem.GivenHessian (p : Problem (Exact K) (Vector (Exact K) n) (Matrix (Exact K) n))
    (h : (Fin n → K) → SquareMatrix K n) : Prop where
  hasHessian : p.hasHessian = true
  hessian : ∀ x, p.hessian (lift x) = .ok (liftMatrix (h x))

section Functions

/-- The number that a value is, or zero. -/
def Exact.toField : Exact K → K
  | number a => a
  | _ => 0

def Exact.toFields (v : Vector (Exact K) n) : Fin n → K := fun i => (v.get i).toField

@[simp] theorem Exact.toFields_lift (x : Fin n → K) : toFields (lift x) = x := by
  funext i
  rw [toFields, show (lift x).get i = number (x i) from getElem_lift x i i.isLt]
  rfl

variable (f : (Fin n → K) → K) (g : (Fin n → K) → Fin n → K) (h : (Fin n → K) → SquareMatrix K n)

/-- The problem with these functions, and with the ordinary end test. -/
def Problem.ofFunctions : Problem (Exact K) (Vector (Exact K) n) (Matrix (Exact K) n) where
  name := "functions"
  dimension := some n
  value v := .ok (number (f (toFields v)))
  gradient? := some fun v => .ok (lift (g (toFields v)))
  hessian? := some fun v => .ok (liftMatrix (h (toFields v)))
  converged := gradientTest

theorem Problem.given_ofFunctions : (ofFunctions f g h).Given f g where
  value x := by simp [ofFunctions]
  hasGradient := rfl
  gradient x := by simp [gradient, ofFunctions]

theorem Problem.givenHessian_ofFunctions : (ofFunctions f g h).GivenHessian h where
  hasHessian := rfl
  hessian x := by simp [hessian, ofFunctions]

end Functions

/-- The iterate at a vector of the field. -/
def iterateAt (f : (Fin n → K) → K) (g : (Fin n → K) → Fin n → K) (x : Fin n → K) :
    Iterate (Exact K) (Vector (Exact K) n) :=
  ⟨lift x, number (f x), lift (g x)⟩

namespace Problem.Given
variable {p : Problem (Exact K) (Vector (Exact K) n) (Matrix (Exact K) n)}
  {f : (Fin n → K) → K} {g : (Fin n → K) → Fin n → K} (h : p.Given f g)
include h

theorem replies_value (needHessian : Bool) (x : Fin n → K) :
    Replies ((p.work n needHessian).value (lift x)) fun a => a = number (f x) := by
  intro l _
  have hvalue := ((p.quiet_differentiable n needHessian).perform_value (lift x) l).1
  rw [valueAt_differentiable, h.value] at hvalue
  rw [show (((p.work n needHessian).value (lift x)).run.run l).1 = _ from hvalue]
  exact rfl

theorem replies_gradient (needHessian : Bool) (x : Fin n → K) :
    Replies ((p.work n needHessian).gradient (lift x)) fun v => v = lift (g x) := by
  intro l _
  have hgradient := ((p.quiet_differentiable n needHessian).perform_gradient (lift x) l).1
  rw [gradientAt_differentiable p needHessian h.hasGradient, h.gradient] at hgradient
  rw [show (((p.work n needHessian).gradient (lift x)).run.run l).1 = _ from hgradient]
  exact rfl

/-- The start of a run is open. -/
theorem opened {d : Descent σ ρ (Exact K) (Vector (Exact K) n) (Matrix (Exact K) n)}
    (hd : d.problem = p) (x : Fin n → K) :
    d.opened (lift x) = .ok (.inl (iterateAt f g x)) := by
  subst hd
  exact Descent.opened_of_replies (h.replies_value _ x) (h.replies_gradient _ x)

end Problem.Given

end Downhill
