import Downhill.Fault
import Downhill.Linear.Matrix

/-! Arrays of any extents, as they arrive from callers and from problems, and their conversion from
and to vectors and matrices. -/
namespace Downhill

/-- Extents and entries, the last extent running fastest. -/
structure Tensor (α : Type) where
  shape : Shape
  entries : Array α
  deriving Repr, DecidableEq

namespace Tensor
variable {α : Type}

def ofVector {n : Nat} (v : Vector α n) : Tensor α := ⟨[n], v.toArray⟩

def ofMatrix {n : Nat} (m : Matrix α n) : Tensor α := ⟨[n, n], m.flatten.toArray⟩

def map {β : Type} (f : α → β) (t : Tensor α) : Tensor β := ⟨t.shape, t.entries.map f⟩

def allFinite [Scalar α] (t : Tensor α) : Bool := t.entries.all Scalar.isFinite

/-- The vector of length `n`, if that is what the array is. -/
def vector? (n : Nat) (t : Tensor α) : Option (Vector α n) :=
  if t.shape = [n] then Downhill.vector? n t.entries else none

theorem index_lt {n : Nat} (i j : Fin n) : i.val * n + j.val < n * n :=
  calc i.val * n + j.val < i.val * n + n := Nat.add_lt_add_left j.isLt _
    _ = (i.val + 1) * n := (Nat.succ_mul ..).symm
    _ ≤ n * n := Nat.mul_le_mul_right n i.isLt

/-- Entries in rows as a square matrix of size `n`, if they fill it. -/
def squareOf? (n : Nat) (a : Array α) : Option (Matrix α n) :=
  if h : a.size = n * n then
    some (Matrix.ofFn fun i j =>
      have : i.val * n + j.val < a.size := by rw [h]; exact index_lt i j
      a[i.val * n + j.val])
  else none

/-- The square matrix of size `n`, if that is what the array is. -/
def matrix? (n : Nat) (t : Tensor α) : Option (Matrix α n) :=
  if t.shape = [n, n] then squareOf? n t.entries else none

@[simp] theorem vector?_ofVector {n : Nat} (v : Vector α n) : (ofVector v).vector? n = some v := by
  simp [vector?, ofVector]

theorem squareOf?_flatten {n : Nat} (m : Matrix α n) : squareOf? n m.flatten.toArray = some m := by
  have h : m.flatten.toArray.size = n * n := by simp
  rw [squareOf?, dif_pos h]
  congr 1
  ext i hi j hj
  simp only [Matrix.getElem_ofFn, Vector.getElem_toArray]
  rw [Vector.getElem_flatten]
  have h1 : (i * n + j) / n = i := by
    rw [Nat.mul_comm, Nat.mul_add_div (by omega), Nat.div_eq_of_lt hj, Nat.add_zero]
  have h2 : (i * n + j) % n = j := by
    rw [Nat.mul_comm, Nat.mul_add_mod, Nat.mod_eq_of_lt hj]
  simp only [h1, h2]

@[simp] theorem matrix?_ofMatrix {n : Nat} (m : Matrix α n) : (ofMatrix m).matrix? n = some m := by
  simp [matrix?, ofMatrix, squareOf?_flatten]

/-- The square matrix that an array is, with its size. -/
def square? (t : Tensor α) : Option ((n : Nat) × Matrix α n) :=
  match t.shape with
  | [n, _] => (t.matrix? n).map fun m => ⟨n, m⟩
  | _ => none

@[simp] theorem square?_ofMatrix {n : Nat} (m : Matrix α n) :
    (ofMatrix m).square? = some ⟨n, m⟩ := by
  change ((ofMatrix m).matrix? n).map _ = _
  rw [matrix?_ofMatrix]
  rfl

/-- The number at place `i` of a vector; a negative place counts from the end. A place of an array
with more extents is an array itself and no number, even if it has a single entry. -/
def number (t : Tensor α) (i : Int) : Except (Fault α) α :=
  match t.shape with
  | [] => .error .missingEntry
  | n :: rest =>
    let k := if i < 0 then i + n else i
    if k < 0 ∨ n ≤ k then .error .missingEntry
    else if rest.isEmpty then
      match t.entries[k.toNat]? with
      | some a => .ok a
      | none => .error .missingEntry
    else .error .notNumber

/-- The entries at the first place. -/
def head (t : Tensor α) : Except (Fault α) (List α) :=
  match t.shape with
  | [] | 0 :: _ => .error .missingEntry
  | _ :: rest => .ok (t.entries.toList.take (Shape.volume rest))

/-- The number that an array without extents is. -/
def scalar (t : Tensor α) : Except (Fault α) α :=
  match t.shape, t.entries[0]? with
  | [], some a => .ok a
  | _, _ => .error .notNumber

end Tensor

end Downhill
