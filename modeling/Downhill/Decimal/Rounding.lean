import Downhill.Decimal.Binary

/-! Rounding an exact binary value to a set number of decimals or of significant digits: to
nearest, and to the even neighbour on a tie. -/
namespace Downhill.Decimal

/-- The natural number nearest to `num / den`; of two equally near the even one. -/
def roundDiv (num den : Nat) : Nat :=
  let q := num / den
  let r := num % den
  if 2 * r < den then q
  else if den < 2 * r then q + 1
  else if q % 2 = 0 then q else q + 1

/-- The rounded quotient is within half a unit of the exact one. -/
theorem roundDiv_near (num den : Nat) (h : 0 < den) :
    2 * (roundDiv num den * den) ≤ 2 * num + den ∧
      2 * num ≤ 2 * (roundDiv num den * den) + den := by
  have e : den * (num / den) + num % den = num := Nat.div_add_mod num den
  have l : num % den < den := Nat.mod_lt _ h
  have h1 : (num / den + 1) * den = den * (num / den) + den := by
    rw [Nat.add_mul, Nat.mul_comm]; simp
  have h2 : num / den * den = den * (num / den) := Nat.mul_comm ..
  simp only [roundDiv]
  split
  · rw [h2]; omega
  · split
    · rw [h1]; omega
    · split
      · rw [h2]; omega
      · rw [h1]; omega

/-- On an exact tie the result is even. -/
theorem roundDiv_even_of_tie (num den : Nat) (h : 2 * (num % den) = den) :
    roundDiv num den % 2 = 0 := by
  simp only [roundDiv, h, Nat.lt_irrefl, if_false]
  split <;> omega

example : roundDiv 5 2 = 2 ∧ roundDiv 7 2 = 4 ∧ roundDiv 8 3 = 3 := by decide

namespace Binary

/-- The natural number nearest to `x * 10^places`. -/
def round (x : Binary) (places : Int) : Nat :=
  let (num, den) := x.scaled places
  roundDiv num den

/-- A decimal `digits * 10^(exponent - (number of digits - 1))`: `exponent` is the place of
the leading digit. -/
structure Significant where
  digits : Nat
  exponent : Int
  deriving Repr, DecidableEq

/-- The `count + 1` leading digits of a value; rounding up through nines moves the leading
place. Zero has digits zero and place zero. -/
def significant (x : Binary) (count : Nat) : Significant :=
  if x.isZero then ⟨0, 0⟩
  else
    let e := x.leading
    let n := x.round (count - e)
    if n = Nat.pow 10 (count + 1) then ⟨Nat.pow 10 count, e + 1⟩ else ⟨n, e⟩

end Binary

end Downhill.Decimal
