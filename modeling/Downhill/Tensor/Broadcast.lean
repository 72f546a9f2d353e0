import Downhill.Tensor.Basic

/-! Operations on arrays of different extents. The extents are aligned at the last one; an extent
of one is stretched to the other, and a missing extent counts as one. The main statement is that
arrays of the same extents are combined entry by entry. -/
namespace Downhill

namespace Shape

/-- The place along each extent of entry number `k`. Extents and places are listed from the one
that runs fastest. -/
def indices : List Nat → Nat → List Nat
  | [], _ => []
  | n :: s, k => k % n :: indices s (k / n)

/-- The number of the entry with these places. -/
def place : List Nat → List Nat → Nat
  | n :: s, i :: r => i + n * place s r
  | _, _ => 0

theorem place_indices (s : List Nat) {k : Nat} (h : k < volume s) : place s (indices s k) = k := by
  induction s generalizing k with
  | nil => exact (Nat.lt_one_iff.mp h).symm
  | cons n s ih =>
    have h : k < n * volume s := h
    simp only [indices, place]
    rw [ih (Nat.div_lt_of_lt_mul h), Nat.mod_add_div]

/-- The common extents, from the one that runs fastest. -/
def joinEnds : List Nat → List Nat → Option (List Nat)
  | [], b => some b
  | a, [] => some a
  | m :: a, n :: b =>
    if m = n ∨ n = 1 then (joinEnds a b).map (m :: ·)
    else if m = 1 then (joinEnds a b).map (n :: ·)
    else none

/-- The common extents of two arrays, if they go together. -/
def join? (a b : Shape) : Option Shape := (joinEnds a.reverse b.reverse).map List.reverse

theorem joinEnds_self (a : List Nat) : joinEnds a a = some a := by
  induction a with
  | nil => rfl
  | cons m a ih => simp [joinEnds, ih]

@[simp] theorem join?_self (a : Shape) : join? a a = some a := by simp [join?, joinEnds_self]

/-- An array has at most this many extents. -/
def maxExtents : Nat := 64

/-- The extents of a product: the last extent of the first array meets the last but one of the
second, or its only one, and all others stay. An array without extents scales the other. -/
def product? (a b : Shape) : Option Shape :=
  match a.reverse, b.reverse with
  | [], _ => some b
  | _, [] => some a
  | k :: ra, [m] => if k = m then some ra.reverse else none
  | k :: ra, p :: m :: rb =>
    let s := ra.reverse ++ rb.reverse ++ [p]
    if k = m ∧ s.length ≤ maxExtents then some s else none

/-- The extents of a product of stacks of matrices. The extents of matrices meet as before, and
those of the stacks are joined; both arrays must have extents. -/
def stackedProduct? (a b : Shape) : Option Shape :=
  match a.reverse, b.reverse with
  | [], _ | _, [] => none
  | k :: ra, [m] => if k = m then some ra.reverse else none
  | [k], p :: m :: rb => if k = m then some (rb.reverse ++ [p]) else none
  | k :: r :: ra, p :: m :: rb =>
    if k = m then (joinEnds ra rb).map fun s => s.reverse ++ [r, p] else none

end Shape

namespace Tensor
variable {α : Type} [Zero α]

/-- An array repeated along the extents in which it is stretched. -/
def stretch (t : Tensor α) (s : Shape) : Tensor α :=
  if t.shape = s then t
  else
    let source := t.shape.reverse
    let target := s.reverse
    ⟨s, Array.ofFn fun k : Fin s.volume =>
      let places := List.zipWith (fun i n => i % n) (Shape.indices target k) source
      (t.entries[Shape.place source places]?).getD 0⟩

@[simp] theorem stretch_self (t : Tensor α) : t.stretch t.shape = t := by simp [stretch]

/-- Two arrays combined entry by entry. Where they do not go together the first one stays. -/
def zipWith (f : α → α → α) (t u : Tensor α) : Tensor α :=
  match Shape.join? t.shape u.shape with
  | some s => ⟨s, Array.zipWith f (t.stretch s).entries (u.stretch s).entries⟩
  | none => t

theorem zipWith_of_shape_eq (f : α → α → α) {t u : Tensor α} (h : u.shape = t.shape) :
    zipWith f t u = ⟨t.shape, Array.zipWith f t.entries u.entries⟩ := by
  have hu : u.stretch t.shape = u := by rw [← h, stretch_self]
  simp [zipWith, h, hu]

def transpose (t : Tensor α) : Tensor α :=
  ⟨t.shape.reverse, Array.ofFn fun k : Fin t.shape.volume =>
    (t.entries[Shape.place t.shape.reverse (Shape.indices t.shape k).reverse]?).getD 0⟩

/-- An array in the extents `s`, if it can be written over an array of these extents: leading
extents of one are dropped, and what is left is stretched. -/
def fill? (s : Shape) (t : Tensor α) : Option (Tensor α) :=
  let extra := t.shape.length - s.length
  let t : Tensor α := if (t.shape.take extra).all (· == 1) then ⟨t.shape.drop extra, t.entries⟩ else t
  if Shape.join? s t.shape = some s then some (t.stretch s) else none

@[simp] theorem fill?_self (t : Tensor α) : fill? t.shape t = some t := by simp [fill?]

end Tensor

end Downhill
