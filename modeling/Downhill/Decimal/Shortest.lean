import Downhill.Decimal.Rounding

/-! The fewest decimal digits that read back to the same double: for one digit, two, and so on
up to seventeen, the two neighbours of the value on that decimal grid are tried. -/
namespace Downhill.Decimal

/-- `digits * 10^exponent`. -/
structure Scaled where
  digits : Nat
  exponent : Int
  deriving Repr, DecidableEq

namespace Binary

/-- Compares `a * 10^i` with `n * 2^j`, exactly. -/
def compareScaled (a : Nat) (i : Int) (n : Nat) (j : Int) : Ordering :=
  compare (a * Nat.pow 10 i.toNat * Nat.pow 2 (-j).toNat)
    (n * Nat.pow 2 j.toNat * Nat.pow 10 (-i).toNat)

/-- The decimal lies among the reals that round to `x`. The interval ends halfway to either
neighbour, and its ends belong to it exactly when the significand is even. -/
def readsBack (x : Binary) (d : Scaled) : Bool :=
  let low := if x.narrowBelow then 4 * x.significand - 1 else 4 * x.significand - 2
  let high := 4 * x.significand + 2
  let even := x.significand % 2 == 0
  let below := compareScaled d.digits d.exponent low (x.exponent - 2)
  let above := compareScaled d.digits d.exponent high (x.exponent - 2)
  (below == .gt || (even && below == .eq)) && (above == .lt || (even && above == .eq))

/-- The neighbour of `x` on the grid `10^k` that reads back; of two the nearer, and on a tie the
even one. -/
def onGrid? (x : Binary) (k : Int) : Option Scaled :=
  let (num, den) := x.scaled (-k)
  let down : Scaled := ⟨num / den, k⟩
  let up : Scaled := ⟨num / den + 1, k⟩
  match x.readsBack down, x.readsBack up with
  | true, true => some ⟨roundDiv num den, k⟩
  | true, false => some down
  | false, true => some up
  | false, false => none

/-- The exact decimal value, a last resort that seventeen digits never need. -/
def exact (x : Binary) : Scaled :=
  if 0 ≤ x.exponent then ⟨x.significand * Nat.pow 2 x.exponent.toNat, 0⟩
  else ⟨x.significand * Nat.pow 5 (-x.exponent).toNat, x.exponent⟩

/-- Zeros at the end move into the exponent. -/
def strip : Nat → Scaled → Scaled
  | 0, d => d
  | fuel + 1, d =>
    if d.digits ≠ 0 ∧ d.digits % 10 = 0 then strip fuel ⟨d.digits / 10, d.exponent + 1⟩ else d

def shortest (x : Binary) : Scaled :=
  let top := x.leading
  let found := (List.range 17).findSome? fun n : Nat => x.onGrid? (top - (n : Int))
  strip 18 (found.getD x.exact)

end Binary

example : (Binary.mk 7205759403792794 (-56)).shortest = ⟨1, -1⟩ := by decide +kernel
example : (Binary.mk 1 (-1074)).shortest = ⟨5, -324⟩ := by decide +kernel

end Downhill.Decimal
