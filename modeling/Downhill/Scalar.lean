/-! The numbers that the library computes with. A scalar type has the four operations, an
order, a square root, a modulus and a test for finite values, and no law is assumed of any of
them: doubles are scalars, and so is any field in which the same formulas are to be read
exactly. Comparisons are propositions that can be decided, and a comparison with a value that is
no number is false. -/
namespace Downhill

class Scalar (α : Type) extends Zero α, One α, Neg α, Add α, Sub α, Mul α, Div α, LT α, LE α,
    BEq α, NatCast α, OfScientific α where
  decideLt : (a b : α) → Decidable (a < b)
  decideLe : (a b : α) → Decidable (a ≤ b)
  sqrt : α → α
  abs : α → α
  isFinite : α → Bool

attribute [instance (50)] Scalar.toZero Scalar.toOne Scalar.toNeg Scalar.toAdd Scalar.toSub
  Scalar.toMul Scalar.toDiv Scalar.toLT Scalar.toLE Scalar.toBEq Scalar.toNatCast
  Scalar.toOfScientific

instance (priority := 50) Scalar.decidableLt {α : Type} [Scalar α] (a b : α) :
    Decidable (a < b) :=
  Scalar.decideLt a b

instance (priority := 50) Scalar.decidableLe {α : Type} [Scalar α] (a b : α) :
    Decidable (a ≤ b) :=
  Scalar.decideLe a b

instance : Scalar Float where
  zero := 0.0
  one := 1.0
  natCast := Float.ofNat
  decideLt := fun a b => inferInstanceAs (Decidable (a < b))
  decideLe := fun a b => inferInstanceAs (Decidable (a ≤ b))
  sqrt := Float.sqrt
  abs := Float.abs
  isFinite := Float.isFinite

namespace Scalar
variable {α : Type} [Scalar α]

/-- The second value if it is larger, else the first; a second value that is no number never
replaces the first. -/
def larger (a b : α) : α := if a < b then b else a

/-- The second value if it is smaller, else the first. -/
def smaller (a b : α) : α := if b < a then b else a

/-- A value moved up to the lower bound, then down to the upper one. -/
def clamp (low high a : α) : α := smaller (larger a low) high

theorem larger_of_lt {a b : α} (h : a < b) : larger a b = b := if_pos h

theorem larger_of_not_lt {a b : α} (h : ¬ a < b) : larger a b = a := if_neg h

theorem smaller_of_lt {a b : α} (h : b < a) : smaller a b = b := if_pos h

theorem smaller_of_not_lt {a b : α} (h : ¬ b < a) : smaller a b = a := if_neg h

example : larger (1.0 : Float) 2.0 = 2.0 := larger_of_lt (by decide)

end Scalar

end Downhill
