import Downhill.Ledger
import Downhill.Problem.Oracle
import Downhill.Scalar

/-! What goes into a descent and what comes out of it: the settings that all methods share, the
outcome, the calls that a run makes to its strategy and its search, and the reason why it stops. -/
namespace Downhill

/-- A cap on the accepted steps, the tolerance for the gradient norm, and whether the iterates are
kept. -/
structure Config (α : Type) where
  maxIters : Nat
  tolerance : α
  history : Bool
  deriving Repr, DecidableEq

namespace Config
variable {α : Type} [Scalar α]

/-- The settings that are accepted; of two faults the cap is reported. -/
def make (maxIters : Int) (tolerance : α) (history : Bool) : Except (Fault α) (Config α) :=
  if maxIters < 0 then .error (.setting (.iterationCap maxIters))
  else if 0 < tolerance then .ok ⟨maxIters.toNat, tolerance, history⟩
  else .error (.setting (.tolerance tolerance))

def defaultMaxIters : Int := 1000

def defaultTolerance : α := 1e-6

def standard : Config α := ⟨defaultMaxIters.toNat, defaultTolerance, false⟩

end Config

/-- How a run ended: the last iterate with its value and gradient norm, the number of steps, and
what was evaluated. The history is empty unless it was asked for. -/
structure Outcome (α V : Type) where
  point : V
  value : α
  gradientNorm : α
  iterations : Nat
  status : Status
  message : RunMessage α
  evaluations : Evaluations
  history : List V
  deriving Repr, DecidableEq

namespace Outcome
variable {α V : Type}

def success (r : Outcome α V) : Bool := r.status == .converged

@[simp] theorem success_eq_true_iff (r : Outcome α V) :
    r.success = true ↔ r.status = .converged := by simp [success]

end Outcome

/-- A call of a run to its strategy or its search, entered when it is made. -/
inductive Call (α V : Type) where
  | prepare
  | compute
  | reset
  | initialStep (gradient direction : V)
  | search (direction : V)
  | update (s y gradient : V) (alpha : α) (direction : V)
  deriving Repr, DecidableEq

/-- Why a run stops, after how many steps, and at which iterate. -/
structure Stop (α V : Type) where
  status : Status
  message : RunMessage α
  iterations : Nat
  final : Iterate α V
  deriving Repr, DecidableEq

structure Progress (α V : Type) where
  current : Iterate α V
  iterations : Nat
  deriving Repr, DecidableEq

namespace Progress
variable {α V : Type}

def stop (t : Progress α V) (status : Status) (message : RunMessage α) : Stop α V :=
  ⟨status, message, t.iterations, t.current⟩

def failed (t : Progress α V) (message : RunMessage α) : Stop α V :=
  t.stop .numericalError message

end Progress

end Downhill
