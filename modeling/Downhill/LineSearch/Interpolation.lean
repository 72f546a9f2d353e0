import Downhill.Fault
import Downhill.Scalar

/-! Minimizers of the polynomials that match a function along a ray: its value and slope at the
start, and its value at one or two trial steps. -/
namespace Downhill.Interpolation
variable {α : Type} [Scalar α]

/-- A product that leaves the range although its factor is finite is a fault. -/
def inRange (base result : α) : Except (Fault α) α :=
  if Scalar.isFinite base && !Scalar.isFinite result then .error .overflow else .ok result

def square (a : α) : Except (Fault α) α := inRange a (a * a)

def cube (a : α) : Except (Fault α) α := inRange a (a * a * a)

/-- A step is of use if it is finite and positive. -/
def usable (t : α) : Option α := if Scalar.isFinite t ∧ 0 < t then some t else none

/-- The minimizer of the quadratic through the start and one trial, if there is one. -/
def quadraticMinimizer (f0 slope alpha f : α) : Except (Fault α) (Option α) := do
  let curvature := f - f0 - slope * alpha
  if curvature ≤ 0 then return none
  let a2 ← square alpha
  return usable (-slope * a2 / (2.0 * curvature))

/-- The positive minimizer of the polynomial `f0 + slope t + b t² + a t³`, if there is one. -/
def cubicStep (slope a b : α) : Option α :=
  if a == 0 then
    if 0 < b then usable (-slope / (2.0 * b)) else none
  else
    let disc := b * b - 3.0 * a * slope
    if disc < 0 then none else usable ((-b + Scalar.sqrt disc) / (3.0 * a))

/-- The minimizer of the cubic through the start and two trials, if there is one. -/
def cubicMinimizer (f0 slope a0 fa0 a1 fa1 : α) : Except (Fault α) (Option α) := do
  let s0 ← square a0
  let s1 ← square a1
  let denom := s0 * s1 * (a1 - a0)
  if denom == 0 then return none
  let d1 := fa1 - f0 - slope * a1
  let d0 := fa0 - f0 - slope * a0
  let a := (s0 * d1 - s1 * d0) / denom
  let k0 ← cube a0
  let k1 ← cube a1
  let b := (-k0 * d1 + k1 * d0) / denom
  return cubicStep slope a b

end Downhill.Interpolation
