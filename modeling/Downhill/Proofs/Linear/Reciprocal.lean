import Downhill.Proofs.Linear.Halves
import Downhill.Proofs.Linear.ZeroApart

/-! Reciprocals of positive numbers, among doubles as well as in exact arithmetic. The quotient of
one and a positive double has at least one bit that is not rounded away: it may overflow, but it
never becomes zero. -/
namespace Downhill

/-- What passes a threshold that is not negative is positive; positive numbers differ from zero and
have positive reciprocals. -/
class Reciprocal (α : Type) [Scalar α] : Prop where
  pos_of_lt : ∀ t a : α, ¬ t < 0 → t < a → 0 < a
  beq_zero : ∀ a : α, 0 < a → (a == 0) = false
  one_div_pos : ∀ a : α, Scalar.isFinite a = true → 0 < a → 0 < 1 / a

namespace Exact
variable {K : Type} [ExactField K]

theorem pos_of_not_neg_lt {t a : Exact K} (h0 : ¬ t < 0) (h : t < a) : 0 < a := by
  cases t with
  | number x =>
    cases a with
    | number y => exact lt_of_le_of_lt (not_lt.mp h0) h
    | infinity s => exact h
    | undefined => exact h
  | infinity s =>
    cases a with
    | number y => exact absurd h h0
    | infinity r => exact absurd h.1 h0
    | undefined => exact h
  | undefined => exact h.elim

instance reciprocal : Reciprocal (Exact K) where
  pos_of_lt _ _ := pos_of_not_neg_lt
  beq_zero a h := by
    obtain ⟨x, rfl, hx⟩ | rfl := eq_of_pos h
    · simp [hx.ne']
    · rfl
  one_div_pos a ha h := by
    obtain ⟨x, rfl⟩ := isFinite_iff.mp ha
    have hx : 0 < x := number_lt.mp h
    rw [one_eq, number_div hx.ne']
    exact number_lt.mpr (one_div_pos.mpr hx)

end Exact

section Doubles
open Float.Model UnpackedFloat

theorem roundedMantissa_bounds (em : ExtendedMantissa) :
    em.mantissa ≤ em.roundedMantissa ∧ em.roundedMantissa ≤ em.mantissa + 1 := by
  obtain ⟨m, round, sticky⟩ := em
  cases round <;> cases sticky <;>
    simp only [ExtendedMantissa.roundedMantissa, ExtendedMantissa.accuracy,
      Accuracy.roundToNearestEven] <;> omega

/-- What can be packed: the mantissa has one bit at least and is not too long. -/
structure Packable (m : ℕ) (e : ℤ) : Prop where
  pos : 0 < m
  lt : m < 2 ^ 53
  ge : -1074 ≤ e

/-- A mantissa that is one bit too long at most keeps its other bits. -/
theorem packable_shiftToTarget {q : ℕ} {t : ℤ} (accuracy : Accuracy) (hpos : 0 < q)
    (hle : q ≤ 2 ^ 53) (ht : -1074 ≤ t) :
    Packable (shiftToTargetExponent .binary64 q t accuracy).1.mantissa
      (shiftToTargetExponent .binary64 q t accuracy).2 := by
  have hmantissa : (ExtendedMantissa.ofMantissaAndAccuracy q accuracy).mantissa = q := by
    cases accuracy with
    | exact => rfl
    | inexact order => cases order <;> rfl
  obtain ⟨j, hj⟩ : ∃ j, j = (max (q.log2 + 1 + t - 53) (-1074) - t).toNat := ⟨_, rfl⟩
  have hshift : shiftToTargetExponent .binary64 q t accuracy =
      (ExtendedMantissa.ofMantissaAndAccuracy q accuracy >>> j, t + j) := by
    rw [hj]
    rfl
  rw [hshift]
  rcases hle.lt_or_eq with hlt | rfl
  · have hlog := log2_le_of_lt hlt
    obtain rfl : j = 0 := by omega
    exact ⟨hmantissa.symm ▸ hpos, hmantissa.symm ▸ hlt, by omega⟩
  · have hlog : (2 ^ 53).log2 = 53 := Nat.log2_two_pow
    obtain rfl : j = 1 := by omega
    have hhalf : (ExtendedMantissa.ofMantissaAndAccuracy (2 ^ 53) accuracy >>> 1).mantissa =
        2 ^ 53 / 2 := congrArg (· / 2) hmantissa
    exact ⟨by rw [hhalf]; norm_num, by rw [hhalf]; norm_num, by omega⟩

theorem exists_round {s : Sign} {q : ℕ} {t : ℤ} (accuracy : Accuracy) (hpos : 0 < q)
    (hle : q ≤ 2 ^ 53) (ht : -1074 ≤ t) : ∃ m e hm, Packable m e ∧
      roundWithAccuracy .binary64 s q t accuracy = .finite s m e hm := by
  have hfirst := packable_shiftToTarget accuracy hpos hle ht
  rcases hshift : shiftToTargetExponent .binary64 q t accuracy with ⟨em, e⟩
  rw [hshift] at hfirst
  obtain ⟨hlow, hhigh⟩ := roundedMantissa_bounds em
  have hsecond := packable_shiftToTarget .exact (hfirst.pos.trans_le hlow)
    (hhigh.trans hfirst.lt) hfirst.ge
  refine ⟨_, _, hsecond.pos, hsecond, ?_⟩
  rw [roundWithAccuracy]
  simp only [hshift]
  exact dif_neg hsecond.pos.ne'

/-- The bits of a mantissa are kept, unless the exponent is too large. -/
theorem unpack_pack_packable (s : Sign) {m : ℕ} {e : ℤ} (hm : 0 < m) (h : Packable m e) :
    (∃ m' e' hm', (Float.Model.pack (.finite s m e hm)).unpack = .finite s m' e' hm') ∨
      (Float.Model.pack (.finite s m e hm)).unpack = .infinity s := by
  obtain ⟨-, hlt, hge⟩ := h
  change (∃ m' e' hm', UnpackedFloat.unpack .binary64 (UnpackedFloat.pack .binary64 _) = _) ∨
    UnpackedFloat.unpack .binary64 (UnpackedFloat.pack .binary64 _) = _
  rw [UnpackedFloat.pack]
  split_ifs with hlarge hlog
  · right
    cases s <;> rfl
  · change ¬ 2048 ≤ (e + 1023 + 52).toNat + 1 at hlarge
    change m.log2 + 1 = 53 at hlog
    have hfull : 2 ^ 52 ≤ m := (Nat.le_log2 hm.ne').mp (by omega)
    refine .inl ⟨m, _, hm, unpack_packComponents ?_ ?_ hfull hlt⟩
    · change 0 < (e + 1023 + 52).toNat
      omega
    · change (e + 1023 + 52).toNat < 2047
      omega
  · change ¬ m.log2 + 1 = 53 at hlog
    have hshort : m < 2 ^ 52 := by
      have := log2_le_of_lt hlt
      exact (Nat.log2_lt hm.ne').mp (by omega)
    exact .inl ⟨m, _, hm, unpack_packComponents_zero hm hshort⟩

theorem unpack_one : (1 : Float).toModel.unpack = .finite .positive (2 ^ 52) (-52) (by decide) :=
  rfl

/-- The quotient of one and a double has a bit, and it is one bit too long at most. -/
theorem divCore_one {m : ℕ} {e : ℤ} (h : IsDouble m e) :
    0 < (divCore .binary64 (2 ^ 52) (-52) m e).1 ∧
      (divCore .binary64 (2 ^ 52) (-52) m e).1 ≤ 2 ^ 53 ∧
      -1074 ≤ (divCore .binary64 (2 ^ 52) (-52) m e).2.1 := by
  obtain ⟨hpos, hlt, hge, hle, hfull⟩ := h
  have hlog := log2_le_of_lt hlt
  obtain ⟨t, ht⟩ : ∃ t, t = min (-52 - e) (max (1 - (m.log2 + 1 + e) - 53) (-1074)) := ⟨_, rfl⟩
  obtain ⟨j, hj⟩ : ∃ j, j = (-52 - e - t).toNat := ⟨_, rfl⟩
  have hcore : divCore .binary64 (2 ^ 52) (-52) m e =
      ((2 ^ 52) <<< j / m, t, accuracyOfFraction ((2 ^ 52) <<< j % m) m) := by
    subst hj ht
    rfl
  have hshort : j ≤ m.log2 + 1 := by omega
  have hroom : m.log2 + 1 ≤ 52 + j := by omega
  simp only [hcore, Nat.shiftLeft_eq, ← pow_add]
  refine ⟨Nat.div_pos ?_ hpos, Nat.div_le_of_le_mul ?_, by omega⟩
  · exact (Nat.lt_log2_self.le).trans (Nat.pow_le_pow_right two_pos hroom)
  · calc 2 ^ (52 + j) ≤ 2 ^ (m.log2 + 53) := Nat.pow_le_pow_right two_pos (by omega)
      _ = 2 ^ m.log2 * 2 ^ 53 := pow_add ..
      _ ≤ m * 2 ^ 53 := Nat.mul_le_mul_right _ (Nat.log2_self_le hpos.ne')

theorem pos_iff_unpack {a : Float} :
    0 < a ↔ (UnpackedFloat.zero .positive).lt a.toModel.unpack = true := decide_eq_true_iff

theorem exists_unpack_of_pos {a : Float} (ha : a.isFinite = true) (h : 0 < a) :
    ∃ m e hm, a.toModel.unpack = .finite .positive m e hm := by
  have hfinite : a.toModel.unpack.isFinite = true := ha
  rw [pos_iff_unpack] at h
  cases hu : a.toModel.unpack with
  | notANumber => simp [hu, UnpackedFloat.isFinite] at hfinite
  | infinity s => simp [hu, UnpackedFloat.isFinite] at hfinite
  | zero s => simp [hu, UnpackedFloat.lt, UnpackedFloat.compare] at h
  | finite s m e hm =>
    cases s
    · simp [hu, UnpackedFloat.lt, UnpackedFloat.compare] at h
    · exact ⟨m, e, hm, rfl⟩

theorem one_div_pos_double {a : Float} (ha : a.isFinite = true) (h : 0 < a) : 0 < 1 / a := by
  obtain ⟨m, e, hm, hu⟩ := exists_unpack_of_pos ha h
  obtain ⟨hpos, hle, hge⟩ := divCore_one (isDouble_of_unpack hu)
  rcases hcore : divCore .binary64 (2 ^ 52) (-52) m e with ⟨q, t, accuracy⟩
  rw [hcore] at hpos hle hge
  obtain ⟨m', e', hm', hpackable, hround⟩ := exists_round (s := .positive) accuracy hpos hle hge
  have hquotient : (1 / a).toModel.unpack =
      (Float.Model.pack (.finite .positive m' e' hm')).unpack := by
    have hdiv : (1 : Float).toModel.unpack.div .binary64 a.toModel.unpack =
        .finite .positive m' e' hm' := by
      rw [hu, unpack_one, UnpackedFloat.div, hcore]
      exact hround
    rw [← hdiv]
    rfl
  rw [pos_iff_unpack, hquotient]
  obtain ⟨m₁, e₁, hm₁, hpacked⟩ | hpacked := unpack_pack_packable .positive hm' hpackable
  · rw [hpacked]
    rfl
  · rw [hpacked]
    rfl

theorem neg_iff_unpack {a : Float} :
    a < 0 ↔ a.toModel.unpack.lt (.zero .positive) = true := decide_eq_true_iff

theorem pos_of_not_neg_lt_double {t a : Float} (h0 : ¬ t < 0) (h : t < a) : 0 < a := by
  have hlt : t.toModel.unpack.lt a.toModel.unpack = true := of_decide_eq_true h
  rw [neg_iff_unpack] at h0
  rw [pos_iff_unpack]
  generalize t.toModel.unpack = u at h0 hlt
  generalize a.toModel.unpack = v at hlt ⊢
  cases u with
  | notANumber => cases hlt
  | infinity s =>
    cases s
    · exact absurd rfl h0
    · cases v with
      | infinity r => cases r <;> cases hlt
      | _ => cases hlt
  | zero s =>
    cases v with
    | infinity r => cases r <;> exact hlt
    | finite r m e hm => cases r <;> exact hlt
    | _ => exact hlt
  | finite s m e hm =>
    cases s
    · exact absurd rfl h0
    · cases v with
      | notANumber => cases hlt
      | infinity r =>
        cases r
        · cases hlt
        · rfl
      | zero r => cases hlt
      | finite r m' e' hm' =>
        cases r
        · cases hlt
        · rfl

end Doubles

instance reciprocal_double : Reciprocal Float where
  pos_of_lt _ _ := pos_of_not_neg_lt_double
  beq_zero a h := beq_zero_double (show (0 : Float) ≤ 0 by decide +kernel) h
  one_div_pos _ := one_div_pos_double

end Downhill
