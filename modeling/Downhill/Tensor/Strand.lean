import Downhill.Tensor.Space

/-! An array as a family of vectors along its first extent. A function of vectors applies to each of
them; the main statement is that an array with a single extent is its only strand. -/
namespace Downhill.Tensor
variable {α : Type} [Scalar α]

def strands (t : Tensor α) : Nat := Shape.volume t.shape.tail

/-- The entries in one position at every place of the first extent. -/
def strand (t : Tensor α) (j : Nat) : Vector α (t.shape.headD 0) :=
  Vector.ofFn fun i => (t.entries[i.val * t.strands + j]?).getD 0

/-- The array of the strands that a function gives for each strand. -/
def mapStrands {k : Nat} (t : Tensor α) (f : Vector α (t.shape.headD 0) → Vector α k) : Tensor α :=
  let images := (Array.range t.strands).map fun j => f (t.strand j)
  ⟨k :: t.shape.tail, Array.ofFn fun p : Fin (k * t.strands) =>
    ((images[p.val % t.strands]?).bind fun v => v[p.val / t.strands]?).getD 0⟩

theorem strand_ofVector {n : Nat} (v : Vector α n) : (ofVector v).strand 0 = v := by
  ext i hi
  simp [strand, strands, ofVector, Shape.volume]
  rfl

end Downhill.Tensor
