import Downhill.Linear.Euclidean
import Downhill.Tensor.Broadcast

/-! The shifted factorization for arrays that may not be square matrices. A multiple of the identity
of as many rows as the array has is added under the rules for arrays of different extents, so that a
column or a vector becomes a square matrix. -/
namespace Downhill.Tensor
variable {α : Type} [Scalar α]

/-- The diagonal of an array. A vector counts as the diagonal of a matrix. -/
def diagonal (t : Tensor α) : Except (Fault α) (List α) :=
  match t.shape with
  | [] => .error .missingEntry
  | [_] => .ok (if t.entries.size ≤ 1 then t.entries.toList else t.entries.toList ++ [0])
  | [n, k] => .ok ((List.range (min n k)).filterMap fun i => t.entries[i * k + i]?)
  | _ => .error .lengths

def leastDiagonal (t : Tensor α) : Except (Fault α) α := do
  match ← t.diagonal with
  | [] => throw .emptyDiagonal
  | a :: rest => return rest.foldl Matrix.least a

/-- The square matrix that comes of adding an identity with as many rows. -/
def squared? (t : Tensor α) : Option ((n : Nat) × Matrix α n) :=
  let n := t.shape.headD 0
  if Shape.join? t.shape [n, n] = some [n, n] then
    ((t.stretch [n, n]).matrix? n).map fun m => ⟨n, m⟩
  else none

/-- The factor of an array plus a multiple of the identity, and the multiple. A single row never
has a factor; other arrays that are not square cannot be added to an identity. -/
def factor (t : Tensor α) (beta growth : α) (attempts : Int) : Except (Fault α) (Tensor α × α) := do
  let least ← t.leastDiagonal
  match t.squared? with
  | some ⟨_, m⟩ =>
    let (l, tau) ← m.factorShifted least beta growth attempts
    return (ofMatrix l, tau)
  | none =>
    if t.shape.head? = some 1 ∨ attempts ≤ 0 then throw (.notPositiveDefinite attempts)
    else throw .lengths

end Downhill.Tensor
