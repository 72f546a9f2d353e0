import Downhill.Problem.Himmelblau
import Downhill.Problem.Quadratic
import Downhill.Problem.Valley
import Downhill.Tensor.Strand

/-! The reference problems at points that come as arrays. Their formulas for vectors apply along the
first extent of an array, and a value must be a single number. The main statements say that arrays
which are vectors have the values of these vectors. -/
namespace Downhill
variable {α : Type} [Scalar α]

namespace Quadratic
variable {n : Nat}

/-- The products of a matrix with all columns of an array, which run along the last extent but
one. -/
def applyAll (m : Matrix α n) (x : Tensor α) : Tensor α :=
  let width := x.shape.getLastD 1
  ⟨x.shape, Array.ofFn fun p : Fin x.shape.volume =>
    let block := p.val / (n * width)
    let column : Vector α n := Vector.ofFn fun i =>
      (x.entries[(block * n + i.val) * width + p.val % width]?).getD 0
    ((m[p.val / width % n]?).map fun row => dot row column).getD 0⟩

/-- The value at an array, which is a number only at vectors. At square matrices of the size of the
quadratic, and at stacks of them, the formula gives an array. -/
def valueAt (q : Quadratic α n) (x : Tensor α) : Except (Fault α) α :=
  match x.vector? n, x.shape.reverse with
  | some v, _ => .ok (q.value v)
  | none, k :: m :: stack =>
    if m = n ∧ k = n ∧ (Shape.join? x.shape (k :: stack).reverse).isSome then .error .notNumber
    else .error .lengths
  | none, _ => .error .lengths

/-- The gradient at an array, column by column; the linear term is taken from every row. -/
def gradientAt (q : Quadratic α n) (x : Tensor α) : Except (Fault α) (Tensor α) :=
  match x.vector? n, x.shape.reverse with
  | some v, _ => .ok (.ofVector (q.gradient v))
  | none, _ :: m :: _ =>
    if m = n then Space.difference? (applyAll q.matrix x) (.ofVector q.linear)
    else .error .lengths
  | none, _ => .error .lengths

/-- Its second derivatives are the same everywhere, whatever the array. -/
def onArrays (q : Quadratic α n) : Problem α (Tensor α) (Tensor α) where
  name
  dimension := some n
  value := q.valueAt
  gradient? := some q.gradientAt
  hessian? := some fun _ => .ok (.ofMatrix q.matrix)
  converged := gradientTest

theorem onArrays_value (q : Quadratic α n) (v : Vector α n) :
    q.onArrays.value (.ofVector v) = q.problem.value v := by
  simp [onArrays, valueAt, problem]

end Quadratic

namespace Rosenbrock

/-- The value at an array, the sum over its strands. -/
def valueAt (x : Tensor α) : Except (Fault α) α :=
  match x.shape with
  | [] => .error .missingEntry
  | [_] => .ok (value (vectorOf x.entries))
  | _ => .ok ((List.range x.strands).map fun j => value (x.strand j)).sum

def gradientAt (x : Tensor α) : Except (Fault α) (Tensor α) :=
  match x.shape with
  | [] => .error .missingEntry
  | _ => .ok (x.mapStrands gradient)

/-- The Hessian at an array. The terms along the first extent must make up the diagonal. -/
def hessianAt (x : Tensor α) : Except (Fault α) (Tensor α) :=
  let h := Tensor.ofMatrix (hessian (vectorOf x.entries))
  match x.shape with
  | [] => .error .missingEntry
  | [_] => .ok h
  | k :: rest =>
    let terms : Tensor α := ⟨(k - 1) :: rest, #[]⟩
    if (terms.fill? [x.entries.size - 1]).isSome then .ok h else .error .lengths

/-- The problem without derivatives. It states a dimension, but has a value for vectors of every
length. -/
def bareOnArrays (dimension : Nat) : Problem α (Tensor α) (Tensor α) where
  name := bareName
  dimension := some dimension
  value := valueAt
  gradient? := none
  hessian? := none
  converged := gradientTest

def onArrays (dimension : Nat) : Problem α (Tensor α) (Tensor α) :=
  { (bareOnArrays dimension : Problem α (Tensor α) (Tensor α)) with
    name
    gradient? := some gradientAt
    hessian? := some hessianAt }

theorem bareOnArrays_value {n : Nat} (v : Vector α n) :
    (bareOnArrays n).value (.ofVector v) = (bare : Problem α (Vector α n) (Matrix α n)).value v := by
  obtain ⟨a, rfl⟩ := v
  rfl

end Rosenbrock

namespace Himmelblau

/-- The problem only looks at the first two places. -/
def places (x : Tensor α) : Except (Fault α) Unit :=
  if x.shape.headD 0 < 2 then .error .missingEntry else .ok ()

/-- The gradient at a vector of which the first two entries are looked at. -/
def gradientOf {k : Nat} (v : Vector α k) : Vector α 2 :=
  gradient ((v[0]?).getD 0) ((v[1]?).getD 0)

def onArrays : Problem α (Tensor α) (Tensor α) where
  name
  dimension := some 2
  value x := do
    places x
    return value (← x.number 0) (← x.number 1)
  gradient? := some fun x => do
    places x
    return x.mapStrands gradientOf
  hessian? := none
  converged := gradientTest

end Himmelblau

end Downhill
