import Downhill.Linear.Shifted
import Downhill.Linear.Solve
import Downhill.Linear.Space

/-! Vectors of one length as points, with square matrices as second derivatives. Two of them always
go together, so that every check succeeds; the operations are those of vectors and matrices. -/
namespace Downhill
variable {α : Type} [Scalar α] {n : Nat}

instance : Space α (Vector α n) where
  toAdd := inferInstance
  toSub := inferInstance
  toNeg := inferInstance
  toHMul := inferInstance
  toBEq := inferInstance
  shape _ := [n]
  size _ := n
  inner := dot
  finite := allFinite
  sumCheck _ _ := .ok ()
  dotCheck _ _ := .ok ()
  productCheck _ _ := .ok ()
  zeros _ := Vector.replicate n 0
  write? _ v := some v
  coordinates x := x
  like _ v := v
  column? _ v := some v

/-- The solution of `L Lᵀ x = b`, which a zero on the diagonal of `L` prevents. -/
def solveFactor (factor : Matrix α n) (b : Vector α n) : Except (Fault α) (Vector α n) :=
  match factor.solveFactored? b with
  | some x => .ok x
  | none => .error .singular

instance : Curved α (Vector α n) (Matrix α n) where
  shape _ := [n, n]
  finite := Matrix.allFinite
  symmetrize m := .ok m.symmetrize
  factor := Matrix.choleskyWithShift
  solve := solveFactor
  square _ m := m

namespace Space
variable (u v : Vector α n)

@[simp] theorem inner_vector : inner u v = dot u v := rfl

@[simp] theorem norm_vector : norm v = Downhill.norm v := rfl

@[simp] theorem finite_vector : finite v = allFinite v := rfl

@[simp] theorem sum?_vector : sum? u v = .ok (u + v) := rfl

@[simp] theorem difference?_vector : difference? u v = .ok (u - v) := rfl

@[simp] theorem dot?_vector : dot? u v = .ok (dot u v) := rfl

@[simp] theorem product?_vector : product? u v = .ok (dot u v) := rfl

@[simp] theorem write?_vector : write? u v = some v := rfl

theorem accept_vector (d : Option Int) (h : ∀ k, d = some k → (n : Int) = k) :
    accept v d = .ok v := by
  cases d with
  | none => rfl
  | some k => exact if_pos (h k rfl)

end Space

end Downhill
