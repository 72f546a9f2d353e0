import Downhill.Direction.Basic
import Downhill.Direction.QuasiNewton.History

/-! Limited-memory quasi-Newton directions from the last curvature pairs. -/
namespace Downhill

structure QuasiNewton (α : Type) where
  memory : Int
  threshold : α
  deriving Repr, DecidableEq

namespace QuasiNewton
variable {α V M : Type} [Scalar α] [Space α V]

def standard : QuasiNewton α := ⟨History.defaultMemory, History.defaultThreshold⟩

def check (s : QuasiNewton α) : Except (Fault α) Unit :=
  if s.memory < 1 then .error (.setting .memory) else .ok ()

/-- The pairs, once a run has begun, and how many were rejected since. -/
structure State (α : Type) (m : Nat) (V : Type) where
  history : Option (History α m V)
  skipped : Nat

def fresh {m : Nat} : State α m V := ⟨none, 0⟩

/-- The pairs, which exist once a run has begun. -/
def current {m : Nat} (missing : Fault α) : Act (State α m V) α V (History α m V) := do
  match (← Act.state).history with
  | some h => return h
  | none => throw missing

/-- Offers the pair of an accepted step and counts a rejection. -/
def learn {m : Nat} (s y : V) : Act (State α m V) α V Unit := do
  let h ← current .uninitialized
  let (stored, h) := h.push s y
  Act.modifyState fun st => { st with history := some h }
  match stored with
  | .error f => throw f
  | .ok true => return
  | .ok false =>
    Act.modifyState fun st => { st with skipped := st.skipped + 1 }
    Act.remark (.skipped (Space.inner s y))

def begin (s : QuasiNewton α) (start : V) : Except (Fault α) (State α s.memory.toNat V) := do
  return ⟨some (← History.make s.memory (Space.size start) s.threshold), 0⟩

def strategy (s : QuasiNewton α) : Strategy (State α s.memory.toNat V) α V M where
  name := "lbfgs"
  needsHessian := false
  prepare _ start _ := s.begin start.point
  compute _ it := do Act.ofExcept ((← current .uninitialized).applyTo it.gradient)
  initialStep gradient _ := do
    let h ← current .noHistory
    if h.size = 0 then return some (← Act.ofExcept (cautiousStep gradient))
    else return some 1
  update s y _ _ _ := learn s y
  reset := do
    let h ← current .uninitialized
    Act.modifyState fun st => { st with history := some h.clear }

end QuasiNewton

end Downhill
