import Downhill.Fault
import Downhill.Linear.Matrix

/-! What a computation needs of the points, directions and gradients that it works on, and of the
second derivatives that belong to them. Sums, differences and scalar products are total. Arrays of
any extents are points too, and where the extents of two of them do not go together a sum or a
product means nothing: the checks say so beforehand, and `sum?`, `difference?`, `dot?` and
`product?` make them. Vectors of one length always go together. -/
namespace Downhill

/-- Points over the scalars `α`. -/
class Space (α : outParam Type) (V : Type) extends Add V, Sub V, Neg V, HMul α V V, BEq V where
  shape : V → Shape
  size : V → Nat
  inner : V → V → α
  finite : V → Bool
  /-- The two can be added and subtracted. -/
  sumCheck : V → V → Except (Fault α) Unit
  /-- The product of the two, where one without extents scales the other, is a number. -/
  dotCheck : V → V → Except (Fault α) Unit
  /-- The product of the two, both with extents, is a number. -/
  productCheck : V → V → Except (Fault α) Unit
  zeros : Nat → V
  /-- What the first becomes when the second is written over it. -/
  write? : V → V → Option V
  coordinates : (x : V) → Vector α (size x)
  /-- A point with the extents of the first and these entries. -/
  like : (x : V) → Vector α (size x) → V
  /-- The second, divided by something for every entry at a place of the first, as a column that is
  as long as the first. -/
  column? : (x : V) → V → Option (Vector α (size x))

/-- Second derivatives at the points of a space. -/
class Curved (α V : outParam Type) (M : Type) [Space α V] where
  shape : M → Shape
  finite : M → Bool
  symmetrize : M → Except (Fault α) M
  /-- The triangular factor of a shifted matrix, and the shift. -/
  factor : M → (beta growth : α) → (attempts : Int) → Except (Fault α) (M × α)
  /-- Solves with a triangular factor and its transpose. -/
  solve : M → V → Except (Fault α) V
  /-- A square matrix at a point. -/
  square : (x : V) → Matrix α (Space.size x) → M

attribute [instance (50)] Space.toAdd Space.toSub Space.toNeg Space.toHMul Space.toBEq

namespace Space
variable {α V : Type} [Space α V]

/-- The Euclidean length, the root of the scalar product of a point with itself. -/
def norm [Scalar α] (v : V) : α := Scalar.sqrt (inner v v)

def sum? (u v : V) : Except (Fault α) V := do
  sumCheck u v
  return u + v

def difference? (u v : V) : Except (Fault α) V := do
  sumCheck u v
  return u - v

def dot? (u v : V) : Except (Fault α) α := do
  dotCheck u v
  return inner u v

/-- The scalar product of two points with extents, where it is a number. -/
def product? (u v : V) : Except (Fault α) α := do
  productCheck u v
  return inner u v

/-- The point itself if it is a vector, of the stated length if one is stated. -/
def accept (x : V) (dimension : Option Int) : Except DimensionFault V :=
  match shape x, dimension with
  | [_], none => .ok x
  | [k], some n => if (k : Int) = n then .ok x else .error (.wrongLength k n)
  | shape, _ => .error (.notVector shape)

end Space

end Downhill
