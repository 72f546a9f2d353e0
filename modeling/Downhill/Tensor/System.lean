import Downhill.Linear.Euclidean
import Downhill.Tensor.Broadcast

/-! Stacks of linear systems. The last two extents of an array are those of square matrices, and the
extents before them are those of a stack; the stacks of matrices and of right-hand sides are joined.
A vector is the right-hand side of every system. -/
namespace Downhill.Tensor
variable {α : Type} [Scalar α]

/-- Matrix `block` of a stack of matrices with `n` rows and columns. -/
def block (t : Tensor α) (n block : Nat) : Matrix α n :=
  Matrix.ofFn fun i j => (t.entries[(block * n + i.val) * n + j.val]?).getD 0

/-- Column `j` of block `block`, in an array of blocks with `n` rows and `k` columns. -/
def column (t : Tensor α) (n k block j : Nat) : Vector α n :=
  Vector.ofFn fun i => (t.entries[(block * n + i.val) * k + j]?).getD 0

/-- The array of extents `shape` whose blocks have these columns, block after block. -/
def ofColumns {n : Nat} (shape : Shape) (k : Nat) (columns : Array (Vector α n)) : Tensor α :=
  ⟨shape, Array.ofFn fun p : Fin shape.volume =>
    let place := p.val / (n * k) * k + p.val % k
    ((columns[place]?).bind fun v => v[p.val / k % n]?).getD 0⟩

/-- The matrix determines solutions, whatever the right-hand sides. -/
def isRegular {n : Nat} (m : Matrix α n) : Bool := (m.solve? (Vector.replicate n 0)).isSome

/-- The solutions of `count` systems of size `n` for `k` right-hand sides each, as an array of extents
`shape`. A matrix that determines none is refused even without a right-hand side. -/
def solveBlocks (t b : Tensor α) (n k count : Nat) (shape : Shape) :
    Except (Fault α) (Tensor α) := do
  if (List.range count).all fun p => isRegular (t.block n p) then
    let columns ← (Array.range (count * k)).mapM fun p =>
      match (t.block n (p / k)).solve? (b.column n k (p / k) (p % k)) with
      | some x => .ok x
      | none => .error .singular
    return ofColumns shape k columns
  else throw .singular

def solveStack (t b : Tensor α) : Except (Fault α) (Tensor α) :=
  match t.shape.reverse with
  | n :: m :: stack =>
    if n = m then
      match b.shape.reverse with
      | [] => .error .lengths
      | [k] =>
        let shape := stack.reverse ++ [n]
        if k = n then solveBlocks t (b.stretch shape) n 1 (Shape.volume stack) shape else .error .lengths
      | k :: r :: sides =>
        match Shape.joinEnds stack sides with
        | some joined =>
          let s := joined.reverse
          if r = n then
            solveBlocks (t.stretch (s ++ [n, n])) (b.stretch (s ++ [n, k])) n k (Shape.volume s)
              (s ++ [n, k])
          else .error .lengths
        | none => .error .lengths
    else .error .singular
  | _ => .error .singular

/-- The solution for a factor: first with the factor, then with its transpose. -/
def solve (t b : Tensor α) : Except (Fault α) (Tensor α) := do
  t.transpose.solveStack (← t.solveStack b)

end Downhill.Tensor
