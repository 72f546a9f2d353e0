/-! The exact value behind the bits of a double: a sign and a natural number times a power
of two, or a value that is no number. All printing starts from here. -/
namespace Downhill.Decimal

/-- The magnitude `significand * 2^exponent`. -/
structure Binary where
  significand : Nat
  exponent : Int
  deriving Repr, DecidableEq

/-- What a double stands for. -/
inductive Reading where
  | nan
  | infinite (negative : Bool)
  | finite (negative : Bool) (magnitude : Binary)
  deriving Repr, DecidableEq

namespace Reading

/-- The fields of the sixty-four bits: sign, eleven bits of exponent, fifty-two of fraction. -/
def ofBits (b : UInt64) : Reading :=
  let negative := b >>> 63 == 1
  let e := ((b >>> 52) &&& 0x7FF).toNat
  let f := (b &&& 0xFFFFFFFFFFFFF).toNat
  if e = 0x7FF then
    if f = 0 then infinite negative else nan
  else if e = 0 then finite negative ⟨f, -1074⟩
  else finite negative ⟨Nat.pow 2 52 + f, (e : Int) - 1075⟩

def ofFloat (v : Float) : Reading := ofBits v.toBits

end Reading

namespace Binary

def isZero (x : Binary) : Bool := x.significand == 0

/-- A numerator and a denominator of `x * 10^k`. -/
def scaled (x : Binary) (k : Int) : Nat × Nat :=
  (x.significand * Nat.pow 2 x.exponent.toNat * Nat.pow 10 k.toNat,
    Nat.pow 2 (-x.exponent).toNat * Nat.pow 10 (-k).toNat)

/-- Whether `10^k` is at most the value. -/
def reaches (x : Binary) (k : Int) : Bool :=
  let (num, den) := x.scaled (-k)
  den ≤ num

/-- The exponent of the leading decimal digit of a value that is not zero. The binary
logarithm gives it up to one step in either direction. -/
def leading (x : Binary) : Int :=
  let guess := ((x.significand.log2 : Int) + x.exponent) * 30103 / 100000
  if x.reaches (guess + 1) then guess + 1
  else if x.reaches guess then guess
  else guess - 1

/-- The neighbour below a power of two is half as far away as the neighbour above. -/
def narrowBelow (x : Binary) : Bool := x.significand == Nat.pow 2 52 && x.exponent > -1074

end Binary

example : Reading.ofBits 0x3FF8000000000000 = .finite false ⟨3 * 2 ^ 51, -52⟩ := by decide
example : Reading.ofBits 0xFFF0000000000000 = .infinite true := by decide
example : Reading.ofBits 0x0000000000000001 = .finite false ⟨1, -1074⟩ := by decide

end Downhill.Decimal
