import Downhill.Linear.Vector

/-! Square matrices as vectors of rows. -/
namespace Downhill

/-- A square matrix; `m[i][j]` stands in row `i` and column `j`. -/
abbrev Matrix (α : Type) (n : Nat) := Vector (Vector α n) n

namespace Matrix
variable {α : Type} [Scalar α] {n : Nat}

def ofFn (f : Fin n → Fin n → α) : Matrix α n := Vector.ofFn fun i => Vector.ofFn (f i)

omit [Scalar α] in
@[simp] theorem getElem_ofFn (f : Fin n → Fin n → α) (i j : Nat) (hi : i < n) (hj : j < n) :
    (ofFn f)[i][j] = f ⟨i, hi⟩ ⟨j, hj⟩ := by simp [ofFn]

def transpose (m : Matrix α n) : Matrix α n := ofFn fun i j => (m.get j).get i

def identity : Matrix α n := ofFn fun i j => if i = j then 1 else 0

def apply (m : Matrix α n) (v : Vector α n) : Vector α n := m.map fun row => dot row v

def product (a b : Matrix α n) : Matrix α n :=
  let columns := transpose b
  ofFn fun i j => dot (a.get i) (columns.get j)

def symmetrize (m : Matrix α n) : Matrix α n := ofFn fun i j => 0.5 * ((m.get i).get j + (m.get j).get i)

/-- Adds `tau` times the identity, entry by entry. -/
def shift (m : Matrix α n) (tau : α) : Matrix α n :=
  ofFn fun i j => (m.get i).get j + tau * (if i = j then 1 else 0)

def allFinite (m : Matrix α n) : Bool := m.all Downhill.allFinite

def diagonal (m : Matrix α n) : Vector α n := Vector.ofFn fun i => (m.get i).get i

def ofColumns (columns : Vector (Vector α n) n) : Matrix α n := transpose columns

omit [Scalar α] in
@[simp] theorem getElem_transpose (m : Matrix α n) (i j : Nat) (hi : i < n) (hj : j < n) :
    (transpose m)[i][j] = m[j][i] := by simp [transpose]

@[simp] theorem getElem_symmetrize (m : Matrix α n) (i j : Nat) (hi : i < n) (hj : j < n) :
    (symmetrize m)[i][j] = 0.5 * (m[i][j] + m[j][i]) := by simp [symmetrize]

@[simp] theorem getElem_shift (m : Matrix α n) (tau : α) (i j : Nat) (hi : i < n) (hj : j < n) :
    (shift m tau)[i][j] = m[i][j] + tau * (if i = j then 1 else 0) := by
  simp [shift, Fin.ext_iff]

@[simp] theorem getElem_apply (m : Matrix α n) (v : Vector α n) (i : Nat) (hi : i < n) :
    (apply m v)[i] = dot m[i] v := by simp [apply]

omit [Scalar α] in
@[simp] theorem getElem_diagonal (m : Matrix α n) (i : Nat) (hi : i < n) :
    m.diagonal[i] = m[i][i] := by simp [diagonal]

end Matrix

end Downhill
