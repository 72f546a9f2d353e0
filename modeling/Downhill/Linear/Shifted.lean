import Downhill.Fault
import Downhill.Linear.Cholesky

/-! The Cholesky factorization of a matrix that may not be positive definite: a multiple of the
identity is added, the smallest in a growing sequence for which the factorization succeeds. -/
namespace Downhill.Matrix
variable {α : Type} [Scalar α] {n : Nat}

/-- The smaller of two values; a value that is no number wins. -/
def least (a b : α) : α := if a ≤ b then a else if b ≤ a then b else a + b

def leastDiagonal (m : Matrix α (n + 1)) : α := (rest m.diagonal).foldl least (first m.diagonal)

/-- The shift that is tried first: none for a positive diagonal, else one that makes the smallest
diagonal entry `beta`. -/
def firstShift (beta leastDiagonal : α) : α :=
  if 0 < leastDiagonal then 0 else beta - leastDiagonal

def nextShift (beta growth tau : α) : α := Scalar.larger (growth * tau) beta

/-- Tries growing shifts, at most `attempts` of them, and returns the factor with the shift that was
used. -/
def tryShifts (m : Matrix α n) (beta growth : α) : Nat → α → Option (Matrix α n × α)
  | 0, _ => none
  | attempts + 1, tau =>
    match cholesky? (m.shift tau) with
    | some l => some (l, tau)
    | none => tryShifts m beta growth attempts (nextShift beta growth tau)

/-- The factor of `m + tau * I` and the shift `tau`, where `least` decides the shift that is tried
first. -/
def factorShifted (m : Matrix α n) (least beta growth : α) (attempts : Int) :
    Except (Fault α) (Matrix α n × α) :=
  match tryShifts m beta growth attempts.toNat (firstShift beta least) with
  | some found => .ok found
  | none => .error (.notPositiveDefinite attempts)

/-- The same with the smallest diagonal entry, which an empty matrix does not have. -/
def choleskyWithShift : {n : Nat} → Matrix α n → (beta growth : α) → (attempts : Int) →
    Except (Fault α) (Matrix α n × α)
  | 0, _, _, _, _ => .error .emptyDiagonal
  | _ + 1, m, beta, growth, attempts => m.factorShifted m.leastDiagonal beta growth attempts

/-- The base of the shifts, their growth and their number, if none are stated. -/
def defaultShiftBase : α := 1e-3

def defaultShiftGrowth : α := 10.0

def defaultShiftAttempts : Int := 20

end Downhill.Matrix
