import Downhill.Fault

/-! What searches and runs have to say: the outcome of a search, the status of a run, and the
remarks made on the way. All are data; `Downhill.Wording` puts them into words. -/
namespace Downhill

inductive EarlyStop where
  | rounding
  | interval
  | upperBound
  | lowerBound
  | unusableStep
  | evaluations (cap : Nat)
  deriving Repr, DecidableEq

inductive SearchMessage (α : Type) where
  | armijo
  | wolfe
  | strongWolfe
  /-- The bracket is used up; the last step with sufficient decrease is returned. -/
  | bracketExhausted
  | tooShort (least : α)
  | noStep (cap : Nat)
  | stopped (cause : EarlyStop)
  /-- The best step with sufficient decrease is returned. -/
  | stoppedWithBest (cause : EarlyStop)
  | text (words : String)
  deriving Repr, DecidableEq

inductive Status where
  | converged
  | iterationCap
  | searchFailed
  | numericalError
  deriving Repr, DecidableEq

inductive RunMessage (α : Type) where
  | startNotFinite
  | initialNotFinite
  | toleranceMet
  | numerical (cause : NumericalFault α)
  | directionNotFinite
  | search (message : SearchMessage α)
  | stepNotFinite
  | iterationCap
  deriving Repr, DecidableEq

inductive Restart where
  | periodic
  | noConjugacy
  | notDescending
  deriving Repr, DecidableEq

inductive Remark (α : Type) where
  | finished (strategy : String) (iterations : Nat) (message : RunMessage α) (value norm : α)
  | iterated (strategy : String) (iteration : Nat) (value norm alpha : α)
  | notDescending (strategy : String) (iteration : Nat)
  | retrying (strategy : String) (iteration : Nat) (message : SearchMessage α)
  | shifted (tau : α)
  | notRegularized
  | restarted (reason : Restart)
  | skipped (curvature : α)
  | curvatureNotEnforced (search : String)
  deriving Repr, DecidableEq

inductive Source where
  | loop
  | newton
  | conjugateGradient
  | quasiNewton
  deriving Repr, DecidableEq

def Source.all : List Source := [loop, newton, conjugateGradient, quasiNewton]

theorem Source.mem_all (s : Source) : s ∈ all := by cases s <;> decide

namespace Remark
variable {α : Type}

def source : Remark α → Source
  | finished .. | iterated .. | notDescending .. | retrying .. => .loop
  | shifted _ | notRegularized => .newton
  | restarted _ => .conjugateGradient
  | skipped _ | curvatureNotEnforced _ => .quasiNewton

/-- Ten for details, twenty for results, thirty for recoverable trouble. -/
def level : Remark α → Int
  | iterated .. | shifted _ | restarted _ | skipped _ => 10
  | finished .. => 20
  | notDescending .. | retrying .. | notRegularized | curvatureNotEnforced _ => 30

end Remark

end Downhill
