import Downhill.Linear.Bordered

/-! The Cholesky factorization. The factor is built from the corner: a positive corner gives
the first column of the factor, and the rest is factorized after that column's products have
been subtracted. Only the lower triangle of the matrix is read. -/
namespace Downhill.Matrix
variable {α : Type} [Scalar α]

/-- The first column of the factor below its corner `d`. -/
def choleskyColumn {n : Nat} (m : Matrix α (n + 1)) (d : α) : Vector α n :=
  Vector.ofFn fun i => first (m.get i.succ) / d

/-- What is left of a matrix when the products of a column are subtracted. -/
def choleskyRest {n : Nat} (m : Matrix α (n + 1)) (column : Vector α n) : Matrix α n :=
  ofFn fun i j => (m.get i.succ).get j.succ - column.get i * column.get j

/-- The lower triangular factor with positive diagonal, or nothing if some corner that comes up
is at most zero. A corner that is no number goes into the factor. -/
def cholesky? : {n : Nat} → Matrix α n → Option (Matrix α n)
  | 0, _ => some #v[]
  | n + 1, m =>
    let corner := first (first m)
    if corner ≤ 0 then none
    else
      let d := Scalar.sqrt corner
      let column : Vector α n := choleskyColumn m d
      (cholesky? (choleskyRest m column)).map (bordered d column)

end Downhill.Matrix
