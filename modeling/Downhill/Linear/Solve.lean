import Downhill.Linear.Bordered

/-! Linear systems by elimination with row pivoting. One unknown is eliminated through the
equation with the largest leading coefficient, the smaller system is solved, and the unknown
follows from the equation that was used. -/
namespace Downhill
variable {α : Type} [Scalar α]

/-- Coefficients and right-hand side of one equation. -/
structure Equation (α : Type) (n : Nat) where
  coefficients : Vector α n
  value : α

namespace Equation

/-- The equation without the unknown in front, which `p` determines. -/
def reduceBy {n : Nat} (p e : Equation α (n + 1)) : Equation α n :=
  let factor := first e.coefficients / first p.coefficients
  ⟨Vector.ofFn fun j => e.coefficients.get j.succ - factor * p.coefficients.get j.succ,
    e.value - factor * p.value⟩

/-- The unknown in front, once the others are known. -/
def leading {n : Nat} (p : Equation α (n + 1)) (x : Vector α n) : α :=
  (p.value - dot (rest p.coefficients) x) / first p.coefficients

end Equation

/-- The place of the equation with the largest leading coefficient, the first of equals. -/
def pivot {k n : Nat} (system : Vector (Equation α (n + 1)) (k + 1)) : Fin (k + 1) :=
  (List.finRange (k + 1)).foldl
    (fun best i =>
      if Scalar.abs (first (system.get best).coefficients) <
          Scalar.abs (first (system.get i).coefficients) then i
      else best) 0

/-- The equations other than the one in place `p`; the first takes its place. -/
def others {k : Nat} {β : Type} (system : Vector β (k + 1)) (p : Fin (k + 1)) : Vector β k :=
  Vector.ofFn fun i => if i.val + 1 = p.val then first system else system.get i.succ

/-- The solution, or nothing if a pivot is exactly zero. -/
def eliminate? : {n : Nat} → Vector (Equation α n) n → Option (Vector α n)
  | 0, _ => some #v[]
  | _ + 1, system =>
    let place := pivot system
    let used := system.get place
    if first used.coefficients == 0 then none
    else
      (eliminate? ((others system place).map used.reduceBy)).map fun x => front (used.leading x) x

namespace Matrix
variable {n : Nat}

/-- The solution of `m x = b`. -/
def solve? (m : Matrix α n) (b : Vector α n) : Option (Vector α n) :=
  eliminate? (Vector.zipWith Equation.mk m b)

def solveFactored? (l : Matrix α n) (b : Vector α n) : Option (Vector α n) :=
  (solve? l b).bind (solve? (transpose l))

end Matrix

end Downhill
