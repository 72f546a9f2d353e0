import Downhill.Scalar

/-! Vectors of a fixed length over a scalar type: the scalar product, the Euclidean norm, unit
perturbations, and the tests that look at every entry. Sums, differences and multiples are the
componentwise ones of `Vector`. -/
namespace Downhill
variable {α : Type} [Scalar α] {n : Nat}

def dot (u v : Vector α n) : α := (Vector.zipWith (· * ·) u v).sum

/-- The Euclidean norm, the root of the scalar product of a vector with itself. -/
def norm (v : Vector α n) : α := Scalar.sqrt (dot v v)

/-- The vector with `h` in place `i` and zero elsewhere. -/
def spike (i : Fin n) (h : α) : Vector α n := Vector.ofFn fun j => if i = j then h else 0

def allFinite (v : Vector α n) : Bool := v.all Scalar.isFinite

@[simp] theorem getElem_spike (i : Fin n) (h : α) (j : Nat) (hj : j < n) :
    (spike i h)[j] = if i = ⟨j, hj⟩ then h else 0 := by simp [spike]

/-- The entries of an array as a vector of the length that the array has. -/
def vectorOf (a : Array α) : Vector α a.size := ⟨a, rfl⟩

/-- The entries of an array as a vector of length `n`, if there are `n`. -/
def vector? (n : Nat) (a : Array α) : Option (Vector α n) :=
  if h : a.size = n then some ⟨a, h⟩ else none

omit [Scalar α] in
@[simp] theorem get_eq_getElem (v : Vector α n) (i : Fin n) : v.get i = v[i] := rfl

omit [Scalar α] in
@[simp] theorem vector?_toArray (v : Vector α n) : vector? n v.toArray = some v := by
  simp [vector?]

example : dot (#v[1.0, 2.0] : Vector Float 2) #v[3.0, 4.0] = 11.0 := by decide +kernel

end Downhill
