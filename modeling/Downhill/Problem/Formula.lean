import Downhill.Problem.Basic
import Downhill.Tensor.Space

/-! Problems written as formulas: an expression for the value, and arrays of expressions for the
derivatives that are known. -/
namespace Downhill

inductive Formula where
  | number (v : Float)
  /-- An entry of the point; a negative place counts from the end. -/
  | entry (i : Int)
  | sum (a b : Formula)
  | difference (a b : Formula)
  | product (a b : Formula)
  | quotient (a b : Formula)
  | negation (a : Formula)
  | modulus (a : Formula)
  | power (a : Formula) (k : Nat)
  | root (a : Formula)
  | exponential (a : Formula)
  | logarithm (a : Formula)
  | sine (a : Formula)
  | cosine (a : Formula)
  /-- The third expression if the first is less than the second, else the fourth; the other
  one is not evaluated. -/
  | ifLess (a b p q : Formula)
  deriving Repr

namespace Formula

/-- A power by repeated multiplication, starting from one. -/
def powerOf (a : Float) (k : Nat) : Float := Nat.repeat (· * a) k 1.0

def eval (x : Tensor Float) : Formula → Except (Fault Float) Float
  | number v => .ok v
  | entry i => x.number i
  | sum a b => do return (← a.eval x) + (← b.eval x)
  | difference a b => do return (← a.eval x) - (← b.eval x)
  | product a b => do return (← a.eval x) * (← b.eval x)
  | quotient a b => do return (← a.eval x) / (← b.eval x)
  | negation a => do return -(← a.eval x)
  | modulus a => do return (← a.eval x).abs
  | power a k => do return powerOf (← a.eval x) k
  | root a => do return (← a.eval x).sqrt
  | exponential a => do return (← a.eval x).exp
  | logarithm a => do return (← a.eval x).log
  | sine a => do return (← a.eval x).sin
  | cosine a => do return (← a.eval x).cos
  | ifLess a b p q => do
    let u ← a.eval x
    let v ← b.eval x
    if u < v then p.eval x else q.eval x

end Formula

/-- Expressions that are written as an array, or as one expression. Lists of different extents side
by side have no common extents. -/
structure FormulaArray where
  shape : Option Shape
  entries : Array Formula
  deriving Repr

namespace FormulaArray

def eval (a : FormulaArray) (x : Tensor Float) : Except (Fault Float) (Tensor Float) := do
  let entries ← a.entries.mapM (Formula.eval x)
  match a.shape with
  | some shape => return ⟨shape, entries⟩
  | none => throw .lengths

def number (a : FormulaArray) (x : Tensor Float) : Except (Fault Float) Float := do
  (← a.eval x).scalar

end FormulaArray

inductive EndTest where
  /-- The point differs from the previous one. -/
  | moved
  | always
  | never
  /-- The first entry is negative; there must be one entry at the first place. -/
  | negativeFirst
  deriving Repr, DecidableEq

def EndTest.holds : EndTest → (previous x : Tensor Float) → Except (Fault Float) Bool
  | moved, previous, x => return !(previous == x)
  | always, _, _ => return true
  | never, _, _ => return false
  | negativeFirst, _, x => do
    match ← x.head with
    | [a] => return a < 0.0
    | _ => throw .lengths

structure Model where
  name : String
  dimension : Option Int
  value : FormulaArray
  gradient : Option FormulaArray
  hessian : Option FormulaArray
  test : Option EndTest

def Model.problem (m : Model) : Problem Float (Tensor Float) (Tensor Float) where
  name := m.name
  dimension := m.dimension
  value := m.value.number
  gradient? := m.gradient.map FormulaArray.eval
  hessian? := m.hessian.map FormulaArray.eval
  converged := match m.test with
    | none => gradientTest
    | some t => fun previous x _ _ => t.holds previous x

end Downhill
