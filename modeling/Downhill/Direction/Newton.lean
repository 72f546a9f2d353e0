import Downhill.Direction.Basic
import Downhill.Linear.Shifted

/-! Newton directions: `H d = -g` is solved through a Cholesky factorization, of a shifted matrix
where the Hessian is not positive definite. Where no shift works the direction is steepest
descent. -/
namespace Downhill

structure Newton (α : Type) where
  beta : α
  growth : α
  attempts : Int
  deriving Repr, DecidableEq

namespace Newton
variable {α V M : Type} [Scalar α] [Space α V] [Curved α V M]

def standard : Newton α :=
  ⟨Matrix.defaultShiftBase, Matrix.defaultShiftGrowth, Matrix.defaultShiftAttempts⟩

def check (s : Newton α) : Except (Fault α) Unit := do
  if s.beta ≤ 0 then throw (.setting .shiftBase)
  if s.growth ≤ 1 then throw (.setting .shiftGrowth)
  if s.attempts < 1 then throw (.setting .shiftAttempts)

/-- How often a shift was used, how often none worked, and the shift used last. -/
structure State (α : Type) where
  regularizations : Nat
  fallbacks : Nat
  lastShift : α
  deriving Repr, DecidableEq

def fresh : State α := ⟨0, 0, 0⟩

def State.record (s : State α) (tau : α) : State α :=
  { s with
    lastShift := tau
    regularizations := if 0 < tau then s.regularizations + 1 else s.regularizations }

def direction (s : Newton α) (o : Oracle α V M) (it : Iterate α V) : Act (State α) α V V := do
  let hessian ← o.hessian it.point
  Act.ofExcept <|
    if Curved.finite hessian then .ok () else .error (.numerical (.array (.named "Hessian")))
  let hessian ← Act.ofExcept (Curved.symmetrize hessian)
  match Curved.factor hessian s.beta s.growth s.attempts with
  | .ok (factor, tau) =>
    Act.modifyState (State.record · tau)
    if 0 < tau then Act.remark (.shifted tau)
    Act.ofExcept (Curved.solve factor (-it.gradient))
  | .error (.notPositiveDefinite _) =>
    Act.modifyState fun st => { st with fallbacks := st.fallbacks + 1 }
    Act.remark .notRegularized
    return -it.gradient
  | .error f => throw f

def strategy (s : Newton α) : Strategy (State α) α V M where
  name := "newton"
  needsHessian := true
  prepare _ _ st := .ok st
  compute o it := s.direction o it
  initialStep _ _ := return none
  update _ _ _ _ _ := return
  reset := return

end Newton

end Downhill
