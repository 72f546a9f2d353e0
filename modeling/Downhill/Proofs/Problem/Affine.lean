import Downhill.Proofs.Alike
import Downhill.Proofs.Exact.Affine
import Downhill.Proofs.Problem.Given

/-! A problem in affine coordinates. At the image of a point it has the value of the point and the
offset, and the gradient and the Hessian in the new coordinates; both problems are evaluated equally
often. -/
open Matrix

namespace Downhill
variable {K : Type} [ExactField K] {n : ℕ}

open Exact

namespace AffineChange
variable (m : AffineChange K n)

/-- An iterate in the new coordinates. -/
def iterate (y : Iterate (Exact K) (Vector (Exact K) n)) :
    Iterate (Exact K) (Vector (Exact K) n) :=
  ⟨m.image y.point, y.value + number m.offset, m.pulled y.gradient⟩

theorem iterate_eq (f : (Fin n → K) → K) (g : (Fin n → K) → Fin n → K) (z : Fin n → K) :
    m.iterate (iterateAt f g z) =
      ⟨lift (m.point z), number (f z + m.offset), lift (m.pull (g z))⟩ := by
  rw [iterate, iterateAt, m.image_lift, m.pulled_lift]
  rfl

/-- At the image of a point the functions of the image are the image of the iterate there. -/
theorem iterateAt_point (f : (Fin n → K) → K) (g : (Fin n → K) → Fin n → K) (z : Fin n → K) :
    iterateAt (m.value f) (m.gradient g) (m.point z) = m.iterate (iterateAt f g z) := by
  rw [iterate_eq, iterateAt, value_point, gradient_point]

/-- The answers of the second oracle at images of points are those of the first at the points, in
the new coordinates. -/
structure Carries (f : (Fin n → K) → K) (g : (Fin n → K) → Fin n → K)
    (o o' : Oracle (Exact K) (Vector (Exact K) n) (Matrix (Exact K) n)) : Prop where
  value : ∀ x, Eval.Matches (fun a a' => a = number (f x) ∧ a' = number (f x + m.offset))
    (o.value (lift x)) (o'.value (lift (m.point x)))
  gradient : ∀ x, Eval.Matches (fun a a' => a = lift (g x) ∧ a' = lift (m.pull (g x)))
    (o.gradient (lift x)) (o'.gradient (lift (m.point x)))

/-- The Hessian of the second oracle at the image of a point is that of the first at the point, in
the new coordinates. -/
def CarriesHessian (h : (Fin n → K) → SquareMatrix K n)
    (o o' : Oracle (Exact K) (Vector (Exact K) n) (Matrix (Exact K) n)) : Prop :=
  ∀ x, Eval.Matches
    (fun a a' => a = liftMatrix (h x) ∧ a' = liftMatrix (m.matrixᵀ * h x * m.matrix))
    (o.hessian (lift x)) (o'.hessian (lift (m.point x)))

end AffineChange

namespace Problem
variable {p p' : Problem (Exact K) (Vector (Exact K) n) (Matrix (Exact K) n)}

omit [ExactField K] in
/-- Answers that go together still do so when the questions are entered and counted. -/
theorem matches_recorded {β : Type} {B : β → β → Prop}
    {c c' : Eval (Exact K) (Vector (Exact K) n) β}
    {count : Eval (Exact K) (Vector (Exact K) n) Unit}
    (r r' : Request (Vector (Exact K) n)) (hcount : Eval.Matches (fun _ _ => True) count count)
    (h : Eval.Matches B c c') :
    Eval.Matches B (do Eval.request r; count; c) (do Eval.request r'; count; c') :=
  (Eval.Matches.request r r').bind fun _ _ _ => hcount.bind fun _ _ _ => h

variable {m : AffineChange K n} {f : (Fin n → K) → K} {g : (Fin n → K) → Fin n → K}
  {needHessian : Bool}

/-- Where nothing is missing a run sees the problem as it is. -/
theorem Given.work_eq (h : p.Given f g) (hneeds : needHessian = true → p.hasHessian = true) :
    p.work n needHessian = (p.counted n).recorded := by
  have hoffers : (p.counted n).offers needHessian = true := by
    cases needHessian <;> simp_all [Oracle.offers, counted, h.hasGradient]
  rw [work, Oracle.differentiable, if_pos hoffers]

/-- The Hessian of a run is the problem's own. -/
theorem Given.replies_hessian (h : p.Given f g) {hess : (Fin n → K) → SquareMatrix K n}
    (hp : p.GivenHessian hess) (x : Fin n → K) :
    Replies ((p.work n true).hessian (lift x)) fun a => a = liftMatrix (hess x) := by
  rw [h.work_eq fun _ => hp.hasHessian]
  refine Oracle.replies_recorded_hessian (.bind (R := fun _ => True) (fun _ _ => trivial) ?_)
  intro _ _
  refine .bind (R := fun a => a = liftMatrix (hess x))
    (Eval.replies_ofExcept (hp.hessian x) rfl) fun a ha => ?_
  exact .ite (fun _ => .pure ha) fun hno => absurd rfl hno

/-- What two runs see of a problem and of its image. -/
theorem Given.carries (h : p.Given f g) (h' : p'.Given (m.value f) (m.gradient g))
    (hneeds : needHessian = true → p.hasHessian = true)
    (hneeds' : needHessian = true → p'.hasHessian = true) :
    m.Carries f g (p.work n needHessian) (p'.work n needHessian) where
  value x := by
    rw [h.work_eq hneeds, h'.work_eq hneeds']
    refine matches_recorded _ _ (fun l l' hl => ⟨trivial, ?_⟩) ?_
    · exact congrArg (fun e : Evaluations => { e with values := e.values + 1 }) hl
    · rw [h.value, h'.value, m.value_point]
      exact .pure ⟨rfl, rfl⟩
  gradient x := by
    rw [h.work_eq hneeds, h'.work_eq hneeds']
    refine matches_recorded _ _ (fun l l' hl => ⟨trivial, ?_⟩) ?_
    · exact congrArg (fun e : Evaluations => { e with gradients := e.gradients + 1 }) hl
    · refine .of_ok (h.gradient x) (h'.gradient (m.point x)) ?_
      rw [m.gradient_point]
      exact .ite Iff.rfl (fun _ => .pure ⟨rfl, rfl⟩) fun hno => absurd rfl hno

/-- What two runs see of the Hessian. -/
theorem Given.carriesHessian (h : p.Given f g) (h' : p'.Given (m.value f) (m.gradient g))
    {hess : (Fin n → K) → SquareMatrix K n} (hp : p.GivenHessian hess)
    (hp' : p'.GivenHessian (m.hessian hess)) :
    m.CarriesHessian hess (p.work n true) (p'.work n true) := by
  intro x
  rw [h.work_eq fun _ => hp.hasHessian, h'.work_eq fun _ => hp'.hasHessian]
  refine matches_recorded _ _ (fun l l' hl => ⟨trivial, ?_⟩) ?_
  · exact congrArg (fun e : Evaluations => { e with hessians := e.hessians + 1 }) hl
  · refine .of_ok (hp.hessian x) (hp'.hessian (m.point x)) ?_
    rw [m.hessian_point]
    exact .ite Iff.rfl (fun _ => .pure ⟨rfl, rfl⟩) fun hno => absurd rfl hno

end Problem

end Downhill
