import Downhill.Tensor.Shifted
import Downhill.Tensor.System

/-! Arrays as points, and arrays as second derivatives. The main statements say that arrays which
are vectors of one length behave as these vectors do. -/
namespace Downhill
variable {α : Type} [Scalar α]

namespace Tensor

instance : Add (Tensor α) := ⟨zipWith (· + ·)⟩

instance : Sub (Tensor α) := ⟨zipWith (· - ·)⟩

instance : Neg (Tensor α) := ⟨map (-·)⟩

instance : HMul α (Tensor α) (Tensor α) := ⟨fun a => map (a * ·)⟩

instance : BEq (Tensor α) :=
  ⟨fun t u => t.shape == u.shape && t.entries == u.entries⟩

/-- The sum of the products of entries in the same place. -/
def inner (t u : Tensor α) : α := (Array.zipWith (· * ·) t.entries u.entries).sum

/-- The extents go together in a sum. -/
def sumCheck (t u : Tensor α) : Except (Fault α) Unit :=
  if (Shape.join? t.shape u.shape).isSome then .ok () else .error .lengths

/-- Extents of a product that is a number, which has none. -/
def numberCheck : Option Shape → Except (Fault α) Unit
  | none => .error .lengths
  | some [] => .ok ()
  | some _ => .error .notNumber

/-- The product is a number: both are vectors, or neither has extents. -/
def dotCheck (t u : Tensor α) : Except (Fault α) Unit :=
  numberCheck (Shape.product? t.shape u.shape)

/-- The product as stacks of matrices is a number: both are vectors. -/
def productCheck (t u : Tensor α) : Except (Fault α) Unit :=
  numberCheck (Shape.stackedProduct? t.shape u.shape)

def symmetrize (t : Tensor α) : Except (Fault α) (Tensor α) := do
  sumCheck t t.transpose
  return (0.5 : α) * (t + t.transpose)

end Tensor

instance : Space α (Tensor α) where
  toAdd := inferInstance
  toSub := inferInstance
  toNeg := inferInstance
  toHMul := inferInstance
  toBEq := inferInstance
  shape := Tensor.shape
  size t := t.entries.size
  inner := Tensor.inner
  finite := Tensor.allFinite
  sumCheck := Tensor.sumCheck
  dotCheck := Tensor.dotCheck
  productCheck := Tensor.productCheck
  zeros n := ⟨[n], Array.replicate n 0⟩
  write? row t := t.fill? row.shape
  coordinates t := vectorOf t.entries
  like t v := ⟨t.shape, v.toArray⟩
  column? t u := do
    let s ← Shape.join? u.shape t.shape.tail
    Downhill.vector? _ (← (u.stretch s).fill? [t.entries.size]).entries

instance : Curved α (Tensor α) (Tensor α) where
  shape := Tensor.shape
  finite := Tensor.allFinite
  symmetrize := Tensor.symmetrize
  factor := Tensor.factor
  solve := Tensor.solve
  square _ m := .ofMatrix m

namespace Tensor
variable {n : Nat} (u v : Vector α n)

theorem zipWith_ofVector (f : α → α → α) :
    zipWith f (ofVector u) (ofVector v) = ofVector (Vector.zipWith f u v) :=
  zipWith_of_shape_eq f (t := ofVector u) (u := ofVector v) rfl

theorem ofVector_add : ofVector u + ofVector v = ofVector (u + v) := zipWith_ofVector u v _

theorem ofVector_sub : ofVector u - ofVector v = ofVector (u - v) := zipWith_ofVector u v _

theorem ofVector_neg : -ofVector v = ofVector (-v) := rfl

theorem ofVector_smul (a : α) : a * ofVector v = ofVector (a * v) := rfl

theorem inner_ofVector : inner (ofVector u) (ofVector v) = dot u v := rfl

theorem finite_ofVector : Space.finite (ofVector v) = Space.finite v := rfl

omit [Scalar α] in
theorem sumCheck_ofVector : sumCheck (ofVector u) (ofVector v) = .ok () := by
  simp [sumCheck, ofVector]

omit [Scalar α] in
theorem dotCheck_ofVector : dotCheck (ofVector u) (ofVector v) = .ok () := by
  simp [dotCheck, numberCheck, ofVector, Shape.product?]

omit [Scalar α] in
theorem productCheck_ofVector : productCheck (ofVector u) (ofVector v) = .ok () := by
  simp [productCheck, numberCheck, ofVector, Shape.stackedProduct?]

theorem write?_ofVector : Space.write? (ofVector u) (ofVector v) = some (ofVector v) :=
  fill?_self (ofVector v)

end Tensor

end Downhill
