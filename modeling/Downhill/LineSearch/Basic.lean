import Downhill.Act
import Downhill.Linear.Space
import Downhill.Loop

/-! The contract of line searches: a ray, the step along it that a search settles on, and the
checks that all searches share. A value or gradient that is not finite at a trial ends the search
with a fault; it is never read as an overlong step. -/
namespace Downhill
variable {α V M : Type} [Scalar α] [Space α V]

/-- A start with its value and gradient, and a direction. -/
structure Ray (α V : Type) where
  start : Iterate α V
  direction : V
  deriving Repr, DecidableEq

/-- What a search settles on. Without success the step is zero and the start is handed back. -/
structure Step (α V : Type) where
  alpha : α
  reached : Iterate α V
  values : Nat
  gradients : Nat
  success : Bool
  message : SearchMessage α
  deriving Repr, DecidableEq

/-- The slope of a gradient along a direction, which must be negative. -/
def descentSlope (gradient direction : V) : Except (Fault α) α := do
  let slope ← Space.dot? gradient direction
  if slope < 0 then return slope else throw (.notDescent slope)

/-- The first trial step: the one that is asked for, else the default of the search. -/
def startingStep (default : α) (asked : Option α) : Except (Fault α) α :=
  let alpha := asked.getD default
  if 0 < alpha ∧ Scalar.isFinite alpha then .ok alpha else .error (.initialStep alpha)

/-- The sufficient-decrease test, which also demands a strict decrease. -/
def sufficientDecrease (f f0 alpha slope c1 : α) : Bool :=
  f < f0 && f ≤ f0 + c1 * alpha * slope

def checkScalar (what : Quantity α) (v : α) : Except (Fault α) Unit :=
  if Scalar.isFinite v then .ok () else .error (.numerical (.scalar what v))

omit [Scalar α] in
def checkArray (what : Quantity α) (finite : Bool) : Except (Fault α) Unit :=
  if finite then .ok () else .error (.numerical (.array what))

/-- The constant of the sufficient-decrease test lies strictly between zero and one. -/
def checkArmijo (c1 : α) : Except (Fault α) Unit :=
  if 0 < c1 ∧ c1 < 1 then .ok () else .error (.setting .armijoConstant)

/-- The constant of the curvature test lies strictly between the other one and one. -/
def checkWolfe (c1 c2 : α) : Except (Fault α) Unit := do
  checkArmijo c1
  if c1 < c2 ∧ c2 < 1 then return () else throw (.setting .wolfeConstants)

namespace Ray

def along (r : Ray α V) (alpha : α) : V := r.start.point + alpha * r.direction

def slope (r : Ray α V) : Except (Fault α) α := descentSlope r.start.gradient r.direction

/-- What every search does first: it finds the slope and its first trial step, and makes sure that
the ray has points. -/
def prepare (r : Ray α V) (default : α) (asked : Option α) : Except (Fault α) (α × α) := do
  let slope ← r.slope
  let alpha ← startingStep default asked
  Space.sumCheck r.start.point r.direction
  return (slope, alpha)

end Ray

namespace Step

/-- A search without success hands back the start. -/
def failed (r : Ray α V) (values gradients : Nat) (message : SearchMessage α) : Step α V :=
  ⟨0, r.start, values, gradients, false, message⟩

def accepted (alpha : α) (reached : Iterate α V) (values gradients : Nat)
    (message : SearchMessage α) : Step α V :=
  ⟨alpha, reached, values, gradients, true, message⟩

end Step

/-- The value at a trial, which must be finite. -/
def trialValue (o : Oracle α V M) (x : V) (alpha : α) : Eval α V α := do
  let f ← o.value x
  Eval.ofExcept (checkScalar (.trial "objective" alpha) f)
  return f

/-- The gradient at a trial, which must be finite. -/
def trialGradient (o : Oracle α V M) (x : V) (alpha : α) : Eval α V V := do
  let g ← o.gradient x
  Eval.ofExcept (checkArray (.trial "gradient" alpha) (Space.finite g))
  return g

/-- A search as a machine with a state of its own. -/
structure Search (ρ α V M : Type) where
  name : String
  /-- Accepted steps also satisfy a curvature condition. -/
  enforcesCurvature : Bool
  run : Oracle α V M → Ray α V → Option α → Act ρ α V (Step α V)

structure Searcher (α V M : Type) where
  State : Type
  search : Search State α V M
  fresh : State

end Downhill
