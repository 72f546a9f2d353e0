import Downhill.Linear.Matrix

/-! The orthogonal factor of a square matrix, as a product of reflections: each reflection clears
one column below the diagonal and leaves alone what stands above it. Lengths are taken through
scaled entries, so columns may be as large or as small as a scalar can be. -/
namespace Downhill
variable {α : Type} [Scalar α] {n : Nat}

def largestModulus (v : Vector α n) : α :=
  v.foldl (fun m a => Scalar.larger m (Scalar.abs a)) 0

/-- The Euclidean length through entries divided by the largest modulus, so that squares neither
overflow nor vanish. -/
def length (v : Vector α n) : α :=
  if v.all (· == 0) then 0
  else
    let m := largestModulus v
    m * norm (v.map (· / m))

/-- The entries from place `j` on, and zero before. -/
def onward (j : Fin n) (v : Vector α n) : Vector α n :=
  Vector.ofFn fun i => if i < j then 0 else v.get i

/-- The reflection `I - scale * normal * normalᵀ`, of which `normal` is zero before a place and one
there. -/
structure Reflection (α : Type) (n : Nat) where
  place : Fin n
  normal : Vector α n
  scale : α

namespace Reflection

/-- The reflected vector; its entries before the place of the reflection are not looked at. -/
def apply (h : Reflection α n) (v : Vector α n) : Vector α n :=
  let w := h.scale * dot h.normal (onward h.place v)
  Vector.ofFn fun i => if i < h.place then v.get i else v.get i - w * h.normal.get i

/-- A column of a length below this is scaled before it is cleared. -/
def leastLength : α := 2e-292

/-- The reflection that clears a column below place `j`. -/
def clearing (column : Vector α n) (j : Fin n) : Reflection α n :=
  let a := column.get j
  let size := length (onward j column)
  let b := if 0 ≤ a then -size else size
  { place := j
    normal := Vector.ofFn fun i => if j < i then column.get i / (a - b) else if i = j then 1 else 0
    scale := (b - a) / b }

/-- The reflection that clears a column below place `j`, unless the column is clear already. -/
def clearing? (column : Vector α n) (j : Fin n) : Option (Reflection α n) :=
  let rest := onward j column
  if (rest.set j 0 j.isLt).all (· == 0) then none
  else if length rest < leastLength then
    some (clearing (rest.map (· / largestModulus rest)) j)
  else some (clearing rest j)

theorem getElem_apply_of_lt (h : Reflection α n) (v : Vector α n) {i : Fin n}
    (hi : i < h.place) : (h.apply v)[i] = v[i] := by simp [apply, hi]

end Reflection

namespace Matrix

/-- The reflections that clear the columns of a matrix one by one, the last first. -/
def reflections (m : Matrix α n) : List (Reflection α n) :=
  ((List.finRange n).foldl (fun (columns, done) j =>
    match Reflection.clearing? (columns.get j) j with
    | none => (columns, done)
    | some h => (columns.map h.apply, h :: done)) (transpose m, [])).2

/-- Reflects the columns of a factor from the place of the reflection on. -/
def reflectColumns (columns : Vector (Vector α n) n) (h : Reflection α n) :
    Vector (Vector α n) n :=
  Vector.ofFn fun k => if k < h.place then columns.get k else h.apply (columns.get k)

/-- The orthogonal factor of a matrix. -/
def orthogonalFactor (m : Matrix α n) : Matrix α n :=
  ofColumns (m.reflections.foldl reflectColumns identity)

end Matrix

end Downhill
