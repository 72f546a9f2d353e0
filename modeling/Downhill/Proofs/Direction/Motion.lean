import Downhill.Direction.Basic
import Downhill.Proofs.Problem.Affine

/-! A problem in rigid coordinates. At the image of a point it has the value of the point and the
offset, and the gradient turned; the two are evaluated equally often. -/
open Matrix

namespace Downhill
variable {σ K : Type} [ExactField K] {n : ℕ}

open Exact

namespace RigidMotion
variable (m : RigidMotion K n)

/-- An iterate in the new coordinates. -/
def iterate (y : Iterate (Exact K) (Vector (Exact K) n)) :
    Iterate (Exact K) (Vector (Exact K) n) :=
  ⟨m.image y.point, y.value + number m.offset, m.turned y.gradient⟩

theorem iterate_eq (f : (Fin n → K) → K) (g : (Fin n → K) → Fin n → K) (z : Fin n → K) :
    m.iterate (iterateAt f g z) =
      ⟨lift (m.point z), number (f z + m.offset), lift (m.turn (g z))⟩ :=
  m.affine.iterate_eq f g z

/-- The answers of the second oracle at images of points are those of the first at the points, in
the new coordinates. -/
structure Moves (f : (Fin n → K) → K) (g : (Fin n → K) → Fin n → K)
    (o o' : Oracle (Exact K) (Vector (Exact K) n) (Matrix (Exact K) n)) : Prop where
  value : ∀ x, Eval.Matches (fun a a' => a = number (f x) ∧ a' = number (f x + m.offset))
    (o.value (lift x)) (o'.value (lift (m.point x)))
  gradient : ∀ x, Eval.Matches (fun a a' => a = lift (g x) ∧ a' = lift (m.turn (g x)))
    (o.gradient (lift x)) (o'.gradient (lift (m.point x)))

/-- The Hessian of the second oracle at the image of a point is that of the first at the point, in
the new coordinates. -/
def TurnsHessian (h : (Fin n → K) → SquareMatrix K n)
    (o o' : Oracle (Exact K) (Vector (Exact K) n) (Matrix (Exact K) n)) : Prop :=
  ∀ x, Eval.Matches
    (fun a a' => a = liftMatrix (h x) ∧ a' = liftMatrix (m.rotationᵀ * h x * m.rotation))
    (o.hessian (lift x)) (o'.hessian (lift (m.point x)))

variable {m} {f : (Fin n → K) → K} {g : (Fin n → K) → Fin n → K}
  {o o' : Oracle (Exact K) (Vector (Exact K) n) (Matrix (Exact K) n)}

/-- A motion moves problems as the affine change that it is. -/
theorem moves_iff : m.Moves f g o o' ↔ m.affine.Carries f g o o' :=
  ⟨fun h => ⟨h.value, h.gradient⟩, fun h => ⟨h.value, h.gradient⟩⟩

end RigidMotion

namespace Problem
variable {p p' : Problem (Exact K) (Vector (Exact K) n) (Matrix (Exact K) n)} {m : RigidMotion K n}
  {f : (Fin n → K) → K} {g : (Fin n → K) → Fin n → K} {needHessian : Bool}

/-- What two runs see of a problem and of its image. -/
theorem Given.moves (h : p.Given f g) (h' : p'.Given (m.value f) (m.gradient g))
    (hneeds : needHessian = true → p.hasHessian = true)
    (hneeds' : needHessian = true → p'.hasHessian = true) :
    m.Moves f g (p.work n needHessian) (p'.work n needHessian) :=
  RigidMotion.moves_iff.mpr (h.carries (m := m.affine) h' hneeds hneeds')

/-- What two runs see of the Hessian. -/
theorem Given.turnsHessian (h : p.Given f g) (h' : p'.Given (m.value f) (m.gradient g))
    {hess : (Fin n → K) → SquareMatrix K n} (hp : p.GivenHessian hess)
    (hp' : p'.GivenHessian (m.hessian hess)) :
    m.TurnsHessian hess (p.work n true) (p'.work n true) :=
  h.carriesHessian (m := m.affine) h' hp hp'

end Problem

/-! Strategies in other coordinates. Two strategies that are told of a run and of its image give
directions that are images of each other, and the same first steps. -/

namespace RigidMotion
variable (m : RigidMotion K n)

/-- A direction and its image, or two that are not finite. -/
def Directions (v v' : Vector (Exact K) n) : Prop :=
  (∃ d, v = lift d ∧ v' = lift (m.turn d)) ∨ allFinite v = false ∧ allFinite v' = false

theorem directions_neg (g : Fin n → K) : m.Directions (-lift g) (-lift (m.turn g)) :=
  .inl ⟨-g, neg_lift g, by rw [neg_lift, turn_neg]⟩

end RigidMotion

/-- The strategy follows a run and its image. In between its states are related by `S`; a fault may
leave only `C` of that. -/
structure Strategy.Follows
    (strategy : Strategy σ (Exact K) (Vector (Exact K) n) (Matrix (Exact K) n))
    (m : RigidMotion K n) (f : (Fin n → K) → K) (g : (Fin n → K) → Fin n → K)
    (o o' : Oracle (Exact K) (Vector (Exact K) n) (Matrix (Exact K) n)) (S C : σ → σ → Prop) :
    Prop where
  left : ∀ st st', S st st' → C st st'
  prepare : ∀ x st, (∃ e, strategy.prepare o (iterateAt f g x) st = .error e ∧
      strategy.prepare o' (m.iterate (iterateAt f g x)) st = .error e) ∨
    ∃ prepared prepared', strategy.prepare o (iterateAt f g x) st = .ok prepared ∧
      strategy.prepare o' (m.iterate (iterateAt f g x)) st = .ok prepared' ∧ S prepared prepared'
  compute : ∀ x, Act.Matches S C m.Directions (strategy.compute o (iterateAt f g x))
    (strategy.compute o' (m.iterate (iterateAt f g x)))
  initialStep : ∀ w d, Act.Matches S C (fun a a' => a' = a)
    (strategy.initialStep (lift w) (lift d))
    (strategy.initialStep (lift (m.turn w)) (lift (m.turn d)))
  update : ∀ s y w alpha d, Act.Matches S C (fun _ _ => True)
    (strategy.update (lift s) (lift y) (lift w) alpha (lift d))
    (strategy.update (lift (m.turn s)) (lift (m.turn y)) (lift (m.turn w)) alpha (lift (m.turn d)))
  reset : Act.Matches S C (fun _ _ => True) strategy.reset strategy.reset

theorem cautiousStep_turn (m : RigidMotion K n) (g : Fin n → K) :
    cautiousStep (lift (m.turn g)) = cautiousStep (lift g) := by
  simp [cautiousStep]

end Downhill
