/-! Loops with a cap on the number of rounds. A round either goes on with a new state or ends
with a result; a loop that reaches its cap hands back the state that it has reached. -/
namespace Downhill
variable {σ β : Type} {m : Type → Type} [Monad m]

/-- Runs at most `cap` rounds. -/
def upTo (round : σ → m (σ ⊕ β)) : Nat → σ → m (σ ⊕ β)
  | 0, s => pure (.inl s)
  | cap + 1, s => do
    match ← round s with
    | .inl s => upTo round cap s
    | .inr b => pure (.inr b)

@[simp] theorem upTo_zero (round : σ → m (σ ⊕ β)) (s : σ) : upTo round 0 s = pure (.inl s) := rfl

theorem upTo_succ (round : σ → m (σ ⊕ β)) (cap : Nat) (s : σ) :
    upTo round (cap + 1) s = (do
      match ← round s with
      | .inl s => upTo round cap s
      | .inr b => pure (.inr b)) := rfl

end Downhill
