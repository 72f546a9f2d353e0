import Mathlib
import Downhill.Scalar

/-! Exact arithmetic: the numbers of an ordered field with two infinities and an undefined value.
The rules are those of doubles without rounding and without overflow, so a computation leaves the
numbers only where it divides by zero, takes the root of a negative number, or started outside
them. Every computation on scalars can be read in this arithmetic, over the reals as well as over
the rationals, where it can be carried out. -/

/-- An ordered field with a root. Nothing but its sign is asked of the root; where a statement
needs true roots, it is about the reals. -/
class ExactField (K : Type) extends Field K, LinearOrder K, IsStrictOrderedRing K where
  root : K → K
  root_nonneg : ∀ a, 0 ≤ root a

namespace Downhill

noncomputable instance : ExactField ℝ where
  root := Real.sqrt
  root_nonneg := Real.sqrt_nonneg

/-- On the rationals the root is that of the largest squares below numerator and denominator. -/
instance : ExactField ℚ where
  root q := (q.num.toNat.sqrt : ℚ) / (q.den.sqrt : ℚ)
  root_nonneg q := by positivity

/-- A number, an infinity with its sign, or no value at all. -/
inductive Exact (K : Type) where
  | number (a : K)
  | infinity (negative : Bool)
  | undefined
  deriving Repr, DecidableEq

namespace Exact
variable {K : Type} [ExactField K]

def neg : Exact K → Exact K
  | number a => number (-a)
  | infinity s => infinity !s
  | undefined => undefined

def add : Exact K → Exact K → Exact K
  | number a, number b => number (a + b)
  | infinity s, number _ => infinity s
  | number _, infinity s => infinity s
  | infinity s, infinity t => if s = t then infinity s else undefined
  | _, _ => undefined

/-- An infinity times a number. -/
def scaled (negative : Bool) (a : K) : Exact K :=
  if a = 0 then undefined else infinity (negative != decide (a < 0))

def mul : Exact K → Exact K → Exact K
  | number a, number b => number (a * b)
  | infinity s, number a => scaled s a
  | number a, infinity s => scaled s a
  | infinity s, infinity t => infinity (s != t)
  | _, _ => undefined

/-- Zero has no sign and divides as a positive number does. -/
def div : Exact K → Exact K → Exact K
  | number a, number b =>
    if b = 0 then if a = 0 then undefined else infinity (decide (a < 0)) else number (a / b)
  | number _, infinity _ => number 0
  | infinity s, number b => infinity (s != decide (b < 0))
  | _, _ => undefined

/-- What has no value is neither less nor greater than anything. -/
def Less : Exact K → Exact K → Prop
  | number a, number b => a < b
  | number _, infinity s => s = false
  | infinity s, number _ => s = true
  | infinity s, infinity t => s = true ∧ t = false
  | _, _ => False

def AtMost : Exact K → Exact K → Prop
  | number a, number b => a ≤ b
  | number _, infinity s => s = false
  | infinity s, number _ => s = true
  | infinity s, infinity t => s = true ∨ t = false
  | _, _ => False

instance decideLess (a b : Exact K) : Decidable (Less a b) :=
  match a, b with
  | number a, number b => inferInstanceAs (Decidable (a < b))
  | number _, infinity s => inferInstanceAs (Decidable (s = false))
  | infinity s, number _ => inferInstanceAs (Decidable (s = true))
  | infinity s, infinity t => inferInstanceAs (Decidable (s = true ∧ t = false))
  | undefined, _ => .isFalse fun h => by cases h
  | number _, undefined => .isFalse fun h => by cases h
  | infinity _, undefined => .isFalse fun h => by cases h

instance decideAtMost (a b : Exact K) : Decidable (AtMost a b) :=
  match a, b with
  | number a, number b => inferInstanceAs (Decidable (a ≤ b))
  | number _, infinity s => inferInstanceAs (Decidable (s = false))
  | infinity s, number _ => inferInstanceAs (Decidable (s = true))
  | infinity s, infinity t => inferInstanceAs (Decidable (s = true ∨ t = false))
  | undefined, _ => .isFalse fun h => by cases h
  | number _, undefined => .isFalse fun h => by cases h
  | infinity _, undefined => .isFalse fun h => by cases h

/-- What has no value differs from itself. -/
def same : Exact K → Exact K → Bool
  | undefined, _ => false
  | a, b => a = b

instance : BEq (Exact K) := ⟨same⟩

def sqrt : Exact K → Exact K
  | number a => if a < 0 then undefined else number (ExactField.root a)
  | infinity false => infinity false
  | _ => undefined

def abs : Exact K → Exact K
  | number a => number |a|
  | infinity _ => infinity false
  | undefined => undefined

def isNumber : Exact K → Bool
  | number _ => true
  | _ => false

instance : Scalar (Exact K) where
  zero := number 0
  one := number 1
  neg := neg
  add := add
  sub a b := add a (neg b)
  mul := mul
  div := div
  lt := Less
  le := AtMost
  toBEq := inferInstance
  natCast n := number n
  ofScientific m s e := number (OfScientific.ofScientific m s e)
  decideLt := decideLess
  decideLe := decideAtMost
  sqrt := sqrt
  abs := abs
  isFinite := isNumber

variable {a b c : Exact K} {x y z : K}

section Numbers

@[simp] theorem zero_eq : (0 : Exact K) = number 0 := rfl

@[simp] theorem one_eq : (1 : Exact K) = number 1 := rfl

@[simp] theorem ofScientific_eq (m : ℕ) (s : Bool) (e : ℕ) :
    (OfScientific.ofScientific m s e : Exact K) = number (OfScientific.ofScientific m s e) := rfl

@[simp] theorem number_add : number x + number y = number (x + y) := rfl

@[simp] theorem number_neg : -number x = number (-x) := rfl

@[simp] theorem number_sub : number x - number y = number (x - y) :=
  congrArg number (sub_eq_add_neg x y).symm

@[simp] theorem number_mul : number x * number y = number (x * y) := rfl

theorem number_div (h : y ≠ 0) : number x / number y = number (x / y) := if_neg h

@[simp] theorem number_lt : number x < number y ↔ x < y := Iff.rfl

@[simp] theorem number_le : number x ≤ number y ↔ x ≤ y := Iff.rfl

@[simp] theorem number_beq : (number x == number y) = decide (x = y) := by
  change (decide (number x = number y) : Bool) = _
  simp

@[simp] theorem abs_number : Scalar.abs (number x) = number |x| := rfl

theorem sqrt_number (h : 0 ≤ x) : Scalar.sqrt (number x) = number (ExactField.root x) :=
  if_neg h.not_gt

@[simp] theorem isFinite_number : Scalar.isFinite (number x) = true := rfl

@[simp] theorem isFinite_infinity (s : Bool) :
    Scalar.isFinite (infinity s : Exact K) = false := rfl

@[simp] theorem isFinite_undefined : Scalar.isFinite (undefined : Exact K) = false := rfl

theorem isFinite_iff : Scalar.isFinite a = true ↔ ∃ x, a = number x := by
  cases a <;> simp

@[simp] theorem larger_number : Scalar.larger (number x) (number y) = number (max x y) := by
  by_cases h : x < y
  · rw [Scalar.larger_of_lt (number_lt.mpr h), max_eq_right h.le]
  · rw [Scalar.larger_of_not_lt (mt number_lt.mp h), max_eq_left (not_lt.mp h)]

@[simp] theorem smaller_number : Scalar.smaller (number x) (number y) = number (min x y) := by
  by_cases h : y < x
  · rw [Scalar.smaller_of_lt (number_lt.mpr h), min_eq_right h.le]
  · rw [Scalar.smaller_of_not_lt (mt number_lt.mp h), min_eq_left (not_lt.mp h)]

theorem clamp_number :
    Scalar.clamp (number x) (number y) (number z) = number (min (max z x) y) := by
  rw [Scalar.clamp, larger_number, smaller_number]

end Numbers

section Order

theorem lt_iff : a < b ↔ Less a b := Iff.rfl

theorem le_iff : a ≤ b ↔ AtMost a b := Iff.rfl

theorem lt_irrefl (a : Exact K) : ¬ a < a := by
  cases a <;> simp [lt_iff, Less]

theorem lt_of_lt_of_le (h₁ : a < b) (h₂ : b ≤ c) : a < c := by
  cases a <;> cases b <;> cases c <;> simp_all [lt_iff, le_iff, Less, AtMost]
  exact h₁.trans_le h₂

theorem lt_of_le_of_lt (h₁ : a ≤ b) (h₂ : b < c) : a < c := by
  cases a <;> cases b <;> cases c <;> simp_all [lt_iff, le_iff, Less, AtMost]
  exact h₁.trans_lt h₂

protected theorem lt_trans (h₁ : a < b) (h₂ : b < c) : a < c := by
  cases a <;> cases b <;> cases c <;> simp_all [lt_iff, Less]
  exact h₁.trans h₂

theorem exists_of_pos (h : 0 < a) (hf : Scalar.isFinite a = true) :
    ∃ x, 0 < x ∧ a = number x := by
  obtain ⟨x, rfl⟩ := isFinite_iff.mp hf
  exact ⟨x, number_lt.mp h, rfl⟩

theorem exists_of_lt_lt (h₁ : number x < a) (h₂ : a < number y) :
    ∃ z, a = number z ∧ x < z ∧ z < y := by
  cases a with
  | number z => exact ⟨z, rfl, h₁, h₂⟩
  | infinity s =>
    have hs : s = false := h₁
    have hs' : s = true := h₂
    simp [hs] at hs'
  | undefined => exact h₁.elim

/-- What lies below something, and not below a number, is a number. -/
theorem exists_of_le_lt (h₁ : number x ≤ a) (h₂ : a < b) : ∃ z, a = number z ∧ x ≤ z := by
  cases a <;> cases b <;> simp_all [lt_iff, le_iff, Less, AtMost]

theorem eq_of_neg (h : a < 0) : (∃ x, a = number x ∧ x < 0) ∨ a = infinity true := by
  cases a with
  | number x => exact .inl ⟨x, rfl, h⟩
  | infinity s =>
    have hs : s = true := h
    exact .inr (congrArg infinity hs)
  | undefined => exact h.elim

theorem eq_of_pos (h : 0 < a) : (∃ x, a = number x ∧ 0 < x) ∨ a = infinity false := by
  cases a with
  | number x => exact .inl ⟨x, rfl, h⟩
  | infinity s =>
    have hs : s = false := h
    exact .inr (congrArg infinity hs)
  | undefined => exact h.elim

theorem number_mul_infinity (h : 0 < x) (s : Bool) :
    number x * infinity s = (infinity s : Exact K) := by
  change scaled s x = _
  simp [scaled, h.ne', h.not_gt]

theorem zero_mul_infinity (s : Bool) : number 0 * infinity s = (undefined : Exact K) := by
  change scaled s 0 = _
  simp [scaled]

theorem not_le_add_infinity (x : K) (a : Exact K) : ¬ number x ≤ a + infinity true := by
  cases a with
  | number y => exact fun h => Bool.noConfusion (show true = false from h)
  | infinity s => cases s <;> exact fun h => by cases h
  | undefined => exact fun h => h.elim

/-- A number below a line of negative slope, at a step that is not negative: the slope is a
number. -/
theorem exists_of_le_add_mul (ha : a < 0) (hx : 0 ≤ x) (h : number y ≤ b + number x * a) :
    ∃ m, a = number m ∧ m < 0 := by
  obtain hm | rfl := eq_of_neg ha
  · exact hm
  · rcases hx.eq_or_lt with rfl | hx
    · rw [zero_mul_infinity] at h
      cases b <;> exact h.elim
    · rw [number_mul_infinity hx] at h
      exact absurd h (not_le_add_infinity y b)

/-- The same where the slope is that of a share of a line. -/
theorem exists_of_le_add_mul_mul (ha : a < 0) (hx : 0 ≤ x) (hz : 0 < z)
    (h : number y ≤ b + number x * (number z * a)) : ∃ m, a = number m ∧ m < 0 := by
  obtain hm | rfl := eq_of_neg ha
  · exact hm
  · rw [number_mul_infinity hz] at h
    obtain ⟨m, hm, -⟩ := exists_of_le_add_mul (a := infinity true) rfl hx h
    cases hm

/-- A number below a line at a positive step and with a negative slope: both are numbers. -/
theorem exists_of_le_add_gain (hx : 0 < x) (ha : 0 < a) (hc : c < 0)
    (h : number y ≤ b + number x * a * c) :
    ∃ t m, a = number t ∧ 0 < t ∧ c = number m ∧ m < 0 := by
  obtain ⟨t, rfl, ht⟩ | rfl := eq_of_pos ha
  · rw [number_mul] at h
    obtain ⟨m, hm, hneg⟩ := exists_of_le_add_mul hc (mul_pos hx ht).le h
    exact ⟨t, m, rfl, ht, hm, hneg⟩
  · have hinf : number x * infinity false * c = infinity true := by
      rw [number_mul_infinity hx]
      obtain ⟨m, rfl, hm⟩ | rfl := eq_of_neg hc
      · change scaled false m = _
        simp [scaled, hm, hm.ne]
      · rfl
    rw [hinf] at h
    exact absurd h (not_le_add_infinity y b)

/-- A value between its bounds stays. -/
theorem clamp_eq_self {low high : Exact K} (hlow : low ≤ a) (hhigh : a ≤ high) :
    Scalar.clamp low high a = a := by
  have hl : ¬ a < low := fun h => lt_irrefl low (lt_of_le_of_lt hlow h)
  have hh : ¬ high < a := fun h => lt_irrefl a (lt_of_le_of_lt hhigh h)
  rw [Scalar.clamp, Scalar.larger_of_not_lt hl, Scalar.smaller_of_not_lt hh]

/-- A number that is moved between bounds is a number between them; it stays above whatever lies
below both itself and the upper bound. -/
theorem exists_clamp (h : number x < a) (y : K) :
    ∃ z, Scalar.clamp (number x) a (number y) = number z ∧ x ≤ z ∧ number z ≤ a ∧ z ≤ max y x ∧
      ∀ t, t < y → number t < a → t < z := by
  unfold Scalar.clamp
  rw [larger_number]
  cases a with
  | number b =>
    have hxb : x < b := h
    refine ⟨min (max y x) b, smaller_number, le_min (le_max_right y x) hxb.le, min_le_right _ b,
      min_le_left _ b, ?_⟩
    exact fun t hty htb => lt_min (lt_max_of_lt_left hty) htb
  | infinity s =>
    have hs : s = false := h
    subst hs
    refine ⟨max y x, Scalar.smaller_of_not_lt nofun, le_max_right y x, rfl, le_rfl, ?_⟩
    exact fun t hty _ => lt_max_of_lt_left hty
  | undefined => exact h.elim

theorem lt_of_le_of_beq_eq_false (h : number x ≤ a) (hne : (number x == a) = false) :
    number x < a := by
  cases a with
  | number y =>
    rw [number_beq, decide_eq_false_iff_not] at hne
    exact number_lt.mpr (lt_of_le_of_ne h hne)
  | infinity s => exact h
  | undefined => exact h

end Order

end Exact

end Downhill
