import Downhill.Proofs.Exact.Vector

/-! What is asked of roots. Where only the size of a vector counts it is enough that the root of a
number is zero or positive as the number is; factorizations need true roots. -/

/-- Roots that are zero where the number is, and positive where it is. -/
class SoundRoot (K : Type) [ExactField K] : Prop where
  root_zero : ExactField.root (0 : K) = 0
  root_pos : ∀ a : K, 0 < a → 0 < ExactField.root a

/-- Roots whose squares are the numbers. -/
class TrueRoot (K : Type) [ExactField K] : Prop where
  root_mul_root : ∀ a : K, 0 ≤ a → ExactField.root a * ExactField.root a = a

/-- Roots that are right for squares. -/
class SquareRoot (K : Type) [ExactField K] : Prop where
  root_mul_self : ∀ a : K, 0 ≤ a → ExactField.root (a * a) = a

namespace Downhill

instance squareRootOfTrue {K : Type} [ExactField K] [TrueRoot K] : SquareRoot K where
  root_mul_self a ha := (mul_self_inj (ExactField.root_nonneg _) ha).mp
    (TrueRoot.root_mul_root (a * a) (mul_self_nonneg a))

instance squareRootRat : SquareRoot ℚ where
  root_mul_self a ha := by
    have hnum : 0 ≤ a.num := Rat.num_nonneg.mpr ha
    have hsquare : (a.num * a.num).toNat = a.num.toNat * a.num.toNat := Int.toNat_mul hnum hnum
    change ((a * a).num.toNat.sqrt : ℚ) / ((a * a).den.sqrt : ℚ) = a
    rw [Rat.mul_self_num, Rat.mul_self_den, hsquare, Nat.sqrt_eq, Nat.sqrt_eq]
    have hcast : ((a.num.toNat : ℕ) : ℚ) = (a.num : ℚ) := by
      exact_mod_cast Int.toNat_of_nonneg hnum
    rw [hcast, Rat.num_div_den]

instance soundRootOfTrue {K : Type} [ExactField K] [TrueRoot K] : SoundRoot K where
  root_zero := mul_self_eq_zero.mp (TrueRoot.root_mul_root 0 le_rfl)
  root_pos a ha := by
    refine lt_of_le_of_ne (ExactField.root_nonneg a) fun h => ha.ne ?_
    rw [← TrueRoot.root_mul_root a ha.le, ← h, mul_zero]

instance trueRootReal : TrueRoot ℝ := ⟨fun _ => Real.mul_self_sqrt⟩

instance soundRootRat : SoundRoot ℚ where
  root_zero := by decide +kernel
  root_pos a ha := by
    have hnum : 0 < a.num.toNat.sqrt := Nat.sqrt_pos.mpr (by simpa using Rat.num_pos.mpr ha)
    have hden : 0 < a.den.sqrt := Nat.sqrt_pos.mpr a.den_pos
    change 0 < (a.num.toNat.sqrt : ℚ) / (a.den.sqrt : ℚ)
    positivity

namespace Exact
variable {K : Type} [ExactField K] {n : ℕ}

theorem dotProduct_self_nonneg (v : Fin n → K) : 0 ≤ v ⬝ᵥ v :=
  Finset.sum_nonneg fun i _ => mul_self_nonneg (v i)

theorem dotProduct_self_pos {v : Fin n → K} (hv : v ≠ 0) : 0 < v ⬝ᵥ v :=
  lt_of_le_of_ne (dotProduct_self_nonneg v) fun h => hv (dotProduct_self_eq_zero.mp h.symm)

/-- The length of a vector of the field. -/
@[simp] theorem norm_lift (v : Fin n → K) :
    Downhill.norm (lift v) = number (ExactField.root (v ⬝ᵥ v)) := by
  rw [Downhill.norm, dot_lift, sqrt_number (dotProduct_self_nonneg v)]

@[simp] theorem norm_lift_zero [SoundRoot K] :
    Downhill.norm (lift (0 : Fin n → K)) = number 0 := by
  rw [norm_lift, dotProduct_zero, SoundRoot.root_zero]

theorem root_dotProduct_pos [SoundRoot K] {v : Fin n → K} (hv : v ≠ 0) :
    0 < ExactField.root (v ⬝ᵥ v) :=
  SoundRoot.root_pos _ (dotProduct_self_pos hv)

end Exact

end Downhill
