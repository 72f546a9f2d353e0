import Downhill.Proofs.Exact.Basic

/-! Halving a step, in exact arithmetic as well as among doubles. A double that is not negative is a
multiple of the least positive one, and half of it is at most the half of that multiple, rounded up.
So halving keeps every order that the exact half has with another double, though it may round. -/
namespace Downhill

section Arithmetic
variable {α : Type} [Scalar α]

/-- A finite step that is positive or zero. -/
def Halvable (a : α) : Prop := Scalar.isFinite a = true ∧ (0 < a ∨ a = 0)

end Arithmetic

/-- The laws of halving in an arithmetic that may round. -/
class Halves (α : Type) [Scalar α] : Prop where
  halvable : ∀ a : α, Halvable a → Halvable (a * 0.5)
  zero_add : ∀ a : α, Halvable a → 0 + a = a
  sub_zero : ∀ a : α, Halvable a → a - 0 = a
  half_comm : ∀ a : α, Halvable a → 0.5 * a = a * 0.5
  half_le : ∀ a b : α, Halvable a → a ≤ b → a * 0.5 ≤ b
  half_lt : ∀ a b : α, Halvable a → a < b → a * 0.5 < b
  not_lt_half : ∀ a b : α, Halvable a → a ≤ 2.0 * b → ¬ b < a * 0.5

namespace Exact
variable {K : Type} [ExactField K]

theorem halvable_iff {a : Exact K} : Halvable a ↔ ∃ x, 0 ≤ x ∧ a = number x := by
  constructor
  · rintro ⟨hfinite, h⟩
    obtain ⟨x, rfl⟩ := isFinite_iff.mp hfinite
    refine ⟨x, ?_, rfl⟩
    rcases h with h | h
    · exact (number_lt.mp h).le
    · exact (number.inj h).ge
  · rintro ⟨x, hx, rfl⟩
    refine ⟨rfl, ?_⟩
    rcases hx.lt_or_eq with hx | rfl
    · exact .inl (number_lt.mpr hx)
    · exact .inr rfl

theorem number_half (x : K) : number x * 0.5 = number (x / 2) := by
  rw [ofScientific_eq, number_mul]
  norm_num
  ring

theorem number_le_of_le {x y : K} {b : Exact K} (hxy : x ≤ y) (h : number y ≤ b) :
    number x ≤ b := by
  cases b with
  | number z => exact number_le.mpr (hxy.trans (number_le.mp h))
  | infinity negative => exact h
  | undefined => exact h

/-- Half of what is at most the double is at most the single. -/
theorem number_half_le {x : K} {b : Exact K} (h : number x ≤ 2.0 * b) : number (x / 2) ≤ b := by
  rw [ofScientific_eq] at h
  cases b with
  | number y =>
    rw [number_mul, number_le] at h
    norm_num at h
    exact number_le.mpr (by linarith)
  | infinity negative =>
    rw [number_mul_infinity (by norm_num)] at h
    exact h
  | undefined => exact h

instance halves : Halves (Exact K) where
  halvable a h := by
    obtain ⟨x, hx, rfl⟩ := halvable_iff.mp h
    exact halvable_iff.mpr ⟨x / 2, div_nonneg hx zero_le_two, number_half x⟩
  zero_add a h := by
    obtain ⟨x, -, rfl⟩ := halvable_iff.mp h
    simp
  sub_zero a h := by
    obtain ⟨x, -, rfl⟩ := halvable_iff.mp h
    simp
  half_comm a h := by
    obtain ⟨x, -, rfl⟩ := halvable_iff.mp h
    simp [mul_comm]
  half_le a b h hab := by
    obtain ⟨x, hx, rfl⟩ := halvable_iff.mp h
    rw [number_half]
    exact number_le_of_le (half_le_self hx) hab
  half_lt a b h hab := by
    obtain ⟨x, hx, rfl⟩ := halvable_iff.mp h
    rw [number_half]
    exact Exact.lt_of_le_of_lt (number_le.mpr (half_le_self hx)) hab
  not_lt_half a b h hab := by
    obtain ⟨x, hx, rfl⟩ := halvable_iff.mp h
    rw [number_half]
    exact fun hlt => Exact.lt_irrefl _ (Exact.lt_of_le_of_lt (number_half_le hab) hlt)

end Exact

section Doubles
open Float.Model UnpackedFloat

/-- The mantissa and the exponent of a double: a mantissa that is not of full length has the least
exponent. -/
structure IsDouble (m : ℕ) (e : ℤ) : Prop where
  pos : 0 < m
  lt : m < 2 ^ 53
  ge : -1074 ≤ e
  le : e ≤ 971
  full : 2 ^ 52 ≤ m ∨ e = -1074

/-- How many times it is the least positive double. -/
def magnitude (m : ℕ) (e : ℤ) : ℕ := m * 2 ^ (e + 1074).toNat

theorem magnitude_least (m : ℕ) : magnitude m (-1074) = m := by
  simp [magnitude]

theorem magnitude_succ (m : ℕ) {e : ℤ} (he : -1074 ≤ e) :
    magnitude m (e + 1) = 2 * magnitude m e := by
  have hexp : (e + 1 + 1074).toNat = (e + 1074).toNat + 1 := by omega
  rw [magnitude, magnitude, hexp]
  ring

theorem magnitude_pos {m : ℕ} (hm : 0 < m) (e : ℤ) : 0 < magnitude m e :=
  Nat.mul_pos hm (Nat.two_pow_pos _)

theorem magnitude_le {m m' : ℕ} {e e' : ℤ} (hm : m ≤ m') (he : e ≤ e') :
    magnitude m e ≤ magnitude m' e' :=
  Nat.mul_le_mul hm (Nat.pow_le_pow_right two_pos (by omega))

theorem magnitude_lt {m m' : ℕ} {e e' : ℤ} (h : IsDouble m e) (h' : IsDouble m' e')
    (hlt : e < e') : magnitude m e < magnitude m' e' := by
  have hge := h.ge
  have hfull : 2 ^ 52 ≤ m' := h'.full.resolve_right (by omega)
  have hexp : (e + 1074).toNat + 1 ≤ (e' + 1074).toNat := by omega
  calc m * 2 ^ (e + 1074).toNat
      < 2 ^ 53 * 2 ^ (e + 1074).toNat := Nat.mul_lt_mul_of_pos_right h.lt (by positivity)
    _ = 2 ^ 52 * 2 ^ ((e + 1074).toNat + 1) := by ring
    _ ≤ m' * 2 ^ (e' + 1074).toNat := Nat.mul_le_mul hfull (Nat.pow_le_pow_right two_pos hexp)

/-- Exponents first and then mantissas is the order of the values. -/
theorem compare_eq_compare_magnitude {m m' : ℕ} {e e' : ℤ} (h : IsDouble m e)
    (h' : IsDouble m' e') :
    (compare e e').then (compare m m') = compare (magnitude m e) (magnitude m' e') := by
  rcases lt_trichotomy e e' with hlt | rfl | hgt
  · rw [compare_lt_iff_lt.mpr hlt, compare_lt_iff_lt.mpr (magnitude_lt h h' hlt)]
    rfl
  · have hpow : 0 < 2 ^ (e + 1074).toNat := by positivity
    rw [compare_eq_iff_eq.mpr rfl, Ordering.eq_then, magnitude, magnitude]
    rcases lt_trichotomy m m' with hlt | rfl | hgt
    · rw [compare_lt_iff_lt.mpr hlt, compare_lt_iff_lt.mpr (Nat.mul_lt_mul_of_pos_right hlt hpow)]
    · rw [compare_eq_iff_eq.mpr rfl, compare_eq_iff_eq.mpr rfl]
    · rw [compare_gt_iff_gt.mpr hgt, compare_gt_iff_gt.mpr (Nat.mul_lt_mul_of_pos_right hgt hpow)]
  · rw [compare_gt_iff_gt.mpr hgt, compare_gt_iff_gt.mpr (magnitude_lt h' h hgt)]
    rfl

theorem bias_eq : ((Float.Model.Format.binary64.exponentBias : ℕ) : ℤ) = 1023 := rfl

theorem toNat_implicit (y : BitVec 52) : (1#1 ++ y).toNat = 2 ^ 52 + y.toNat := by
  rw [BitVec.toNat_append, ← Nat.shiftLeft_add_eq_or_of_lt y.isLt]
  rfl

/-- What is read from the bits of a double is one. -/
theorem isDouble_of_unpack {a : Float.Model} {s : Sign} {m : ℕ} {e : ℤ} {hm : 0 < m}
    (h : a.unpack = .finite s m e hm) : IsDouble m e := by
  have hy : (@unpackMantissa .binary64 a.toBits.toBitVec).toNat < 2 ^ 52 := BitVec.isLt _
  have hx : (@unpackExponent .binary64 a.toBits.toBitVec).toNat < 2048 := BitVec.isLt _
  rw [Float.Model.unpack, UnpackedFloat.unpack] at h
  split_ifs at h with h1 h2 h3 h4
  · cases h
    rw [h3, bias_eq]
    exact ⟨hm, hy.trans (by norm_num), by decide, by decide, .inr rfl⟩
  · cases h
    have hzero := mt BitVec.eq_of_toNat_eq h3
    have hones := mt BitVec.eq_of_toNat_eq h1
    change ¬ _ = 0 at hzero
    change ¬ _ = 2047 at hones
    rw [bias_eq, toNat_implicit]
    refine ⟨by omega, by omega, ?_, ?_, .inl (by omega)⟩
    · push_cast
      omega
    · push_cast
      omega

theorem finite_congr {s : Sign} {m m' : ℕ} {e e' : ℤ} {h : 0 < m} {h' : 0 < m'}
    (hm : m = m') (he : e = e') : UnpackedFloat.finite s m e h = .finite s m' e' h' := by
  subst hm he
  rfl

theorem unpack_packComponents {s : Sign} {k m : ℕ} (hk : 0 < k) (hk' : k < 2047)
    (hm : 2 ^ 52 ≤ m) (hm' : m < 2 ^ 53) :
    UnpackedFloat.unpack .binary64 (UnpackedFloat.packComponents .binary64 s (.ofNat 11 k)
      (.ofNat 52 m)) = .finite s m (k - 1075) ((Nat.two_pow_pos 52).trans_le hm) := by
  have htoNat : (BitVec.ofNat 11 k).toNat = k := Nat.mod_eq_of_lt (by omega)
  have hzero : ¬ BitVec.ofNat 11 k = 0#11 := by
    intro h
    rw [h] at htoNat
    exact hk.ne htoNat
  have hones : ¬ BitVec.ofNat 11 k = -1#11 := by
    intro h
    rw [h] at htoNat
    exact hk'.ne' htoNat
  rw [UnpackedFloat.unpack]
  simp only [unpackExponent_packComponents, unpackMantissa_packComponents,
    unpackSign_packComponents, Sign.ofBitVec_toBitVec]
  rw [if_neg hones, if_neg hzero]
  apply finite_congr
  · rw [toNat_implicit, BitVec.toNat_ofNat]
    omega
  · rw [htoNat]
    rfl

theorem unpack_packComponents_zero {s : Sign} {m : ℕ} (hm : 0 < m)
    (hm' : m < 2 ^ 52) :
    UnpackedFloat.unpack .binary64 (UnpackedFloat.packComponents .binary64 s (0#11)
      (.ofNat 52 m)) = .finite s m (-1074) hm := by
  have htoNat : (BitVec.ofNat 52 m).toNat = m := Nat.mod_eq_of_lt hm'
  have hne : ¬ BitVec.ofNat 52 m = 0#52 := by
    intro h
    rw [h] at htoNat
    exact hm.ne htoNat
  rw [UnpackedFloat.unpack]
  simp only [unpackExponent_packComponents, unpackMantissa_packComponents,
    unpackSign_packComponents, Sign.ofBitVec_toBitVec]
  rw [if_neg (by decide), if_pos trivial, dif_neg hne]
  exact finite_congr htoNat rfl

/-- A double is kept in its bits. -/
theorem unpack_pack_finite {s : Sign} {m : ℕ} {e : ℤ} (h : IsDouble m e) :
    (Float.Model.pack (.finite s m e h.pos)).unpack = .finite s m e h.pos := by
  obtain ⟨hpos, hlt, hge, hle, hfull⟩ := h
  change UnpackedFloat.unpack .binary64 (UnpackedFloat.pack .binary64 _) = _
  rw [UnpackedFloat.pack]
  split_ifs with hlarge hlog
  · change 2048 ≤ (e + 1023 + 52).toNat + 1 at hlarge
    omega
  · change m.log2 + 1 = 53 at hlog
    have hm : 2 ^ 52 ≤ m := (Nat.le_log2 hpos.ne').mp (by omega)
    refine (unpack_packComponents ?_ ?_ hm hlt).trans (finite_congr rfl ?_)
    · change 0 < (e + 1023 + 52).toNat
      omega
    · change (e + 1023 + 52).toNat < 2047
      omega
    · change (((e + 1023 + 52).toNat : ℕ) : ℤ) - 1075 = e
      omega
  · change ¬ m.log2 + 1 = 53 at hlog
    have hm : m < 2 ^ 52 := by
      have := (Nat.log2_lt hpos.ne').mpr hlt
      exact (Nat.log2_lt hpos.ne').mp (by omega)
    refine (unpack_packComponents_zero hpos hm).trans (finite_congr rfl ?_)
    exact (hfull.resolve_left (by omega)).symm

theorem log2_le_of_lt {m : ℕ} (h : m < 2 ^ 53) : m.log2 ≤ 52 := by
  rcases Nat.eq_zero_or_pos m with rfl | hpos
  · simp
  · have := (Nat.log2_lt hpos.ne').mpr h
    omega

theorem log2_mul_two_pow {m : ℕ} (hm : 0 < m) (j : ℕ) : (m * 2 ^ j).log2 = m.log2 + j := by
  induction j with
  | zero => simp
  | succ j ih =>
    rw [pow_succ, ← mul_assoc, mul_comm, Nat.log2_two_mul (by positivity), ih]
    omega

/-- The mantissa with nothing behind it. -/
def whole (m : ℕ) : ExtendedMantissa := ⟨m, false, false⟩

theorem shift_whole (m j : ℕ) : whole (m * 2 ^ j) >>> j = whole m := by
  change Nat.repeat _ j _ = _
  induction j generalizing m with
  | zero => simp [Nat.repeat]
  | succ j ih =>
    rw [Nat.repeat, pow_succ', ← mul_assoc, ih]
    simp [whole, ExtendedMantissa.shiftRightOne]

theorem shift_whole_succ (m j : ℕ) :
    whole (m * 2 ^ j) >>> (j + 1) = ⟨m / 2, m % 2 != 0, false⟩ := by
  change ExtendedMantissa.shiftRightOne (whole (m * 2 ^ j) >>> j) = _
  rw [shift_whole]
  rfl

theorem sign_mul_comm (s t : Sign) : s * t = t * s := by
  cases s <;> cases t <;> rfl

theorem unpacked_mul_comm (f : Float.Model.Format) (u v : UnpackedFloat) :
    u.mul f v = v.mul f u := by
  cases u <;> cases v <;> simp [UnpackedFloat.mul, mul_comm, add_comm, sign_mul_comm]

theorem shiftToTarget_eq {m j : ℕ} {e : ℤ}
    (hj : (max (m.log2 + 1 + e - 53) (-1074) - e).toNat = j) :
    shiftToTargetExponent .binary64 m e .exact = (whole m >>> j, e + j) := by
  have hamount :
      (Float.Model.Format.binary64.targetExponent (totalExponent m e) - e).toNat = j := hj
  simp only [shiftToTargetExponent, shiftToExponent, hamount]
  rfl

/-- A product is shifted to the exponent that its length asks for and rounded there. A mantissa that
is not too long then is not shifted again. -/
theorem round_shifted {s : Sign} {m j r : ℕ} {e : ℤ}
    (hj : (max (m.log2 + 1 + e - 53) (-1074) - e).toNat = j) (he : -1074 ≤ e + j)
    (hr : (whole m >>> j).roundedMantissa = r) (hlt : r < 2 ^ 53) :
    roundWithAccuracy .binary64 s m e .exact =
      if h : r = 0 then .zero s else .finite s r (e + j) (Nat.pos_of_ne_zero h) := by
  have hlog := log2_le_of_lt hlt
  have hlast : shiftToTargetExponent .binary64 r (e + j) .exact = (whole r, e + j) := by
    rw [shiftToTarget_eq (j := 0) (by omega)]
    simp
    rfl
  rw [roundWithAccuracy]
  simp only [shiftToTarget_eq hj, hr, hlast]
  rfl

theorem rounded_half_le (m : ℕ) :
    (⟨m / 2, m % 2 != 0, false⟩ : ExtendedMantissa).roundedMantissa ≤ (m + 1) / 2 := by
  rcases Nat.mod_two_eq_zero_or_one m with h | h
  · rw [h]
    change m / 2 ≤ _
    omega
  · rw [h]
    change m / 2 + m / 2 % 2 ≤ _
    omega

/-- The double is `N` times the least positive one. -/
inductive Sized (a : Float) : ℕ → Prop
  | zero (h : a.toModel.unpack = .zero .positive) : Sized a 0
  | finite {m : ℕ} {e : ℤ} {hm : 0 < m} (h : a.toModel.unpack = .finite .positive m e hm) :
      Sized a (magnitude m e)

theorem unpack_mul (a b : Float) : (a * b).toModel.unpack =
    (Float.Model.pack (a.toModel.unpack.mul .binary64 b.toModel.unpack)).unpack := rfl

theorem unpack_half : (0.5 : Float).toModel.unpack = .finite .positive (2 ^ 52) (-53) (by decide) :=
  rfl

theorem unpack_two : (2.0 : Float).toModel.unpack = .finite .positive (2 ^ 52) (-51) (by decide) :=
  rfl

theorem log2_eq_of_full {m : ℕ} (h : 2 ^ 52 ≤ m) (hlt : m < 2 ^ 53) : m.log2 = 52 := by
  have hge : 52 ≤ m.log2 := (Nat.le_log2 (by omega)).mpr h
  have hle := log2_le_of_lt hlt
  omega

/-- A mantissa that only has to be shifted is kept. -/
theorem round_whole {s : Sign} {r j : ℕ} {e : ℤ} (hpos : 0 < r) (hlt : r < 2 ^ 53)
    (he : -1074 ≤ e + j) (hj : (max (r.log2 + j + 1 + e - 53) (-1074) - e).toNat = j) :
    roundWithAccuracy .binary64 s (r * 2 ^ j) e .exact = .finite s r (e + j) hpos := by
  have hr : (whole (r * 2 ^ j) >>> j).roundedMantissa = r := by
    rw [shift_whole]
    rfl
  have hlog := log2_mul_two_pow hpos j
  rw [round_shifted (by omega) he hr hlt, dif_neg hpos.ne']

/-- A double whose exponent is not the least one is halved without rounding. -/
theorem round_half_of_gt {s : Sign} {m : ℕ} {e : ℤ} (h : IsDouble m e) (he : -1074 < e) :
    roundWithAccuracy .binary64 s (m * 2 ^ 52) (e + -53) .exact = .finite s m (e - 1) h.pos := by
  have hlog := log2_eq_of_full (h.full.resolve_right he.ne') h.lt
  rw [round_whole h.pos h.lt (by omega) (by omega)]
  exact finite_congr rfl (by omega)

/-- With the least exponent one bit of the mantissa is lost. -/
theorem round_half_of_least {s : Sign} {m : ℕ} (hpos : 0 < m) (hlt : m < 2 ^ 53) :
    ∃ r ≤ (m + 1) / 2, roundWithAccuracy .binary64 s (m * 2 ^ 52) (-1074 + -53) .exact =
      if h : r = 0 then .zero s else .finite s r (-1074) (Nat.pos_of_ne_zero h) := by
  have hlog := log2_le_of_lt hlt
  have hlog' := log2_mul_two_pow hpos 52
  have hle := rounded_half_le m
  refine ⟨_, hle, round_shifted (j := 53) (by omega) (by omega) ?_ (by omega)⟩
  exact congrArg _ (shift_whole_succ m 52)

theorem round_two_of_full {s : Sign} {m : ℕ} {e : ℤ} (h : IsDouble m e) (hm : 2 ^ 52 ≤ m) :
    roundWithAccuracy .binary64 s (m * 2 ^ 52) (e + -51) .exact = .finite s m (e + 1) h.pos := by
  have hlog := log2_eq_of_full hm h.lt
  have hge := h.ge
  rw [round_whole h.pos h.lt (by omega) (by omega)]
  exact finite_congr rfl (by omega)

theorem round_two_of_lt {s : Sign} {m : ℕ} (hpos : 0 < m) (hlt : m < 2 ^ 52) :
    roundWithAccuracy .binary64 s (m * 2 ^ 52) (-1074 + -51) .exact =
      .finite s (m * 2) (-1074) (Nat.mul_pos hpos two_pos) := by
  have hlog : (m * 2).log2 ≤ 52 := log2_le_of_lt (by omega)
  have hmul : m * 2 ^ 52 = m * 2 * 2 ^ 51 := by ring
  rw [hmul, round_whole (Nat.mul_pos hpos two_pos) (by omega) (by omega) (by omega)]
  rfl

/-- Half of a double is at most the half of its size, rounded up. -/
theorem Sized.half {a : Float} {N : ℕ} (h : Sized a N) :
    ∃ N', Sized (a * 0.5) N' ∧ N' ≤ (N + 1) / 2 := by
  cases h with
  | zero h =>
    refine ⟨0, .zero ?_, Nat.zero_le _⟩
    rw [unpack_mul, h, unpack_half]
    rfl
  | @finite m e hm h =>
    have hdouble := isDouble_of_unpack h
    have hmul : (a * 0.5).toModel.unpack = (Float.Model.pack (roundWithAccuracy .binary64 .positive
        (m * 2 ^ 52) (e + -53) .exact)).unpack := by
      rw [unpack_mul, h, unpack_half]
      rfl
    rcases hdouble.ge.lt_or_eq with he | rfl
    · have hhalf : IsDouble m (e - 1) :=
        ⟨hm, hdouble.lt, by omega, (Int.sub_le_self e one_pos.le).trans hdouble.le,
          .inl (hdouble.full.resolve_right he.ne')⟩
      rw [round_half_of_gt hdouble he, unpack_pack_finite hhalf] at hmul
      refine ⟨_, .finite hmul, ?_⟩
      have hsize := magnitude_succ m (e := e - 1) (by omega)
      rw [sub_add_cancel] at hsize
      omega
    · obtain ⟨r, hle, hround⟩ := round_half_of_least (s := .positive) hm hdouble.lt
      rw [hround] at hmul
      split_ifs at hmul with hzero
      · exact ⟨0, .zero hmul, Nat.zero_le _⟩
      · have hlt := hdouble.lt
        have hhalf : IsDouble r (-1074) :=
          ⟨Nat.pos_of_ne_zero hzero, by omega, le_rfl, by decide, .inr rfl⟩
        rw [unpack_pack_finite hhalf] at hmul
        refine ⟨_, .finite hmul, ?_⟩
        rw [magnitude_least, magnitude_least]
        exact hle

theorem swap_compare (u v : UnpackedFloat) : v.compare u = (u.compare v).map Ordering.swap := by
  cases u with
  | notANumber => cases v <;> rfl
  | infinity s =>
    cases v with
    | infinity s' => cases s <;> cases s' <;> rfl
    | _ => cases s <;> rfl
  | zero s =>
    cases v with
    | infinity s' => cases s' <;> rfl
    | finite s' m e hm => cases s' <;> rfl
    | _ => rfl
  | finite s m e hm =>
    cases v with
    | notANumber => rfl
    | infinity s' => cases s' <;> rfl
    | zero s' => cases s <;> rfl
    | finite s' m' e' hm' =>
      have he : compare e' e = (compare e e').swap := Std.OrientedCmp.eq_swap
      have hm : compare m' m = (compare m m').swap := Std.OrientedCmp.eq_swap
      cases s <;> cases s' <;> simp [UnpackedFloat.compare, he, hm, Ordering.swap_then]

theorem not_lt_of_le_double {a b : Float} (h : a ≤ b) : ¬ b < a := by
  have hle : a.toModel.unpack.le b.toModel.unpack = true := of_decide_eq_true h
  intro hlt
  have hlt : b.toModel.unpack.lt a.toModel.unpack = true := of_decide_eq_true hlt
  rw [UnpackedFloat.lt, swap_compare] at hlt
  rw [UnpackedFloat.le] at hle
  cases hc : a.toModel.unpack.compare b.toModel.unpack with
  | none => simp [hc] at hle
  | some o => cases o <;> simp [hc] at hle hlt

/-- How `N` times the least positive double compares with a double. -/
def sizeCompare (N : ℕ) : UnpackedFloat → Option Ordering
  | .notANumber => none
  | .infinity .positive => some .lt
  | .infinity .negative => some .gt
  | .zero _ => some (compare N 0)
  | .finite .positive m e _ => some (compare N (magnitude m e))
  | .finite .negative _ _ _ => some .gt

theorem Sized.compare_eq {a : Float} {N : ℕ} (h : Sized a N) (b : Float) :
    a.toModel.unpack.compare b.toModel.unpack = sizeCompare N b.toModel.unpack := by
  cases h with
  | zero h =>
    rw [h]
    cases b.toModel.unpack with
    | notANumber => rfl
    | infinity s => cases s <;> rfl
    | zero s => rfl
    | finite s m e hm =>
      have hpos := magnitude_pos hm e
      cases s
      · rfl
      · simp only [sizeCompare, compare_lt_iff_lt.mpr hpos]
        rfl
  | @finite m e hm h =>
    have hdouble := isDouble_of_unpack h
    rw [h]
    cases hb : b.toModel.unpack with
    | notANumber => rfl
    | infinity s => cases s <;> rfl
    | zero s =>
      have hpos := magnitude_pos hm e
      simp only [sizeCompare, compare_gt_iff_gt.mpr hpos]
      rfl
    | finite s m' e' hm' =>
      cases s
      · rfl
      · exact congrArg some (compare_eq_compare_magnitude hdouble (isDouble_of_unpack hb))

theorem Sized.le_iff {a b : Float} {N : ℕ} (h : Sized a N) :
    a ≤ b ↔ (sizeCompare N b.toModel.unpack).any Ordering.isLE = true := by
  rw [← h.compare_eq]
  exact decide_eq_true_iff

theorem Sized.lt_iff {a b : Float} {N : ℕ} (h : Sized a N) :
    a < b ↔ (sizeCompare N b.toModel.unpack).any (· == .lt) = true := by
  have hlt : a < b ↔ (a.toModel.unpack.compare b.toModel.unpack == some .lt) = true :=
    decide_eq_true_iff
  rw [hlt, h.compare_eq]
  cases sizeCompare N b.toModel.unpack <;> rfl

/-- What passes from `N` to `N'` in every comparison with a size passes in that with a double. -/
theorem any_sizeCompare_of {N N' : ℕ} {q : Ordering → Bool}
    (hq : ∀ x, q (compare N x) = true → q (compare N' x) = true) {u : UnpackedFloat}
    (h : (sizeCompare N u).any q = true) : (sizeCompare N' u).any q = true := by
  cases u with
  | notANumber => exact h
  | infinity s => cases s <;> exact h
  | zero s => exact hq 0 h
  | finite s m e hm =>
    cases s
    · exact h
    · exact hq (magnitude m e) h

/-- A smaller size is at most what the larger one is at most. -/
theorem any_isLE_of_le {N N' : ℕ} (hle : N' ≤ N) {u : UnpackedFloat}
    (h : (sizeCompare N u).any Ordering.isLE = true) :
    (sizeCompare N' u).any Ordering.isLE = true := by
  refine any_sizeCompare_of (fun x hx => ?_) h
  rw [Nat.isLE_compare] at hx ⊢
  exact hle.trans hx

theorem any_isLT_of_le {N N' : ℕ} (hle : N' ≤ N) {u : UnpackedFloat}
    (h : (sizeCompare N u).any (· == .lt) = true) :
    (sizeCompare N' u).any (· == .lt) = true := by
  refine any_sizeCompare_of (fun x hx => ?_) h
  rw [beq_iff_eq, Nat.compare_eq_lt] at hx ⊢
  exact hle.trans_lt hx

theorem unpack_pack_overflow {s : Sign} {m : ℕ} (hm : 0 < m) :
    (Float.Model.pack (.finite s m 972 hm)).unpack = .infinity s := by
  change UnpackedFloat.unpack .binary64 (UnpackedFloat.pack .binary64 _) = _
  rw [UnpackedFloat.pack]
  dsimp only
  rw [if_pos (by decide)]
  cases s <;> rfl

/-- Twice a double has twice its size, or it is too large. -/
theorem unpack_two_mul {b : Float} {s : Sign} {m : ℕ} {e : ℤ} {hm : 0 < m}
    (h : b.toModel.unpack = .finite s m e hm) :
    ((2.0 * b).toModel.unpack = .infinity s ∧ 2 ^ 52 ≤ m ∧ e = 971) ∨ ∃ m' e' hm',
      (2.0 * b).toModel.unpack = .finite s m' e' hm' ∧
        magnitude m' e' = 2 * magnitude m e := by
  have hdouble := isDouble_of_unpack h
  have hmul : (2.0 * b).toModel.unpack = (Float.Model.pack (roundWithAccuracy .binary64 s
      (m * 2 ^ 52) (e + -51) .exact)).unpack := by
    rw [unpack_mul, unpacked_mul_comm, h, unpack_two]
    cases s <;> rfl
  rcases lt_or_ge m (2 ^ 52) with hlt | hfull
  · obtain rfl : e = -1074 := hdouble.full.resolve_left hlt.not_ge
    have htwice : IsDouble (m * 2) (-1074) :=
      ⟨Nat.mul_pos hm two_pos, by omega, le_rfl, by decide, .inr rfl⟩
    rw [round_two_of_lt hm hlt, unpack_pack_finite htwice] at hmul
    refine .inr ⟨_, _, _, hmul, ?_⟩
    rw [magnitude_least, magnitude_least, mul_comm]
  · rw [round_two_of_full hdouble hfull] at hmul
    have hge := hdouble.ge
    rcases hdouble.le.lt_or_eq with he | rfl
    · have htwice : IsDouble m (e + 1) := ⟨hm, hdouble.lt, by omega, by omega, .inl hfull⟩
      rw [unpack_pack_finite htwice] at hmul
      exact .inr ⟨_, _, _, hmul, magnitude_succ m hge⟩
    · exact .inl ⟨hmul.trans (unpack_pack_overflow hm), hfull, rfl⟩

/-- No double is twice as large as those with the largest exponent. -/
theorem Sized.half_le {a : Float} {N m : ℕ} (h : Sized a N) (hm : 2 ^ 52 ≤ m) :
    (N + 1) / 2 ≤ magnitude m 971 := by
  cases h with
  | zero => exact Nat.zero_le _
  | @finite m' e' _ h =>
    have hdouble := isDouble_of_unpack h
    have hle : magnitude m e' ≤ magnitude m 971 := magnitude_le le_rfl hdouble.le
    have hlt : magnitude m' e' < 2 * magnitude m e' := by
      have hmantissa : m' < 2 * m := by
        have := hdouble.lt
        omega
      rw [magnitude, magnitude, ← mul_assoc]
      exact Nat.mul_lt_mul_of_pos_right hmantissa (Nat.two_pow_pos _)
    -- the power of two must not be computed
    generalize magnitude m 971 = y at hle ⊢
    omega

/-- What is at most twice a double is at most that double after halving. -/
theorem any_isLE_of_two_mul {a b : Float} {N : ℕ} (ha : Sized a N)
    (h : (sizeCompare N (2.0 * b).toModel.unpack).any Ordering.isLE = true) :
    (sizeCompare ((N + 1) / 2) b.toModel.unpack).any Ordering.isLE = true := by
  have hspecial : ∀ u, b.toModel.unpack = u → u.mul .binary64 (2.0 : Float).toModel.unpack = u →
      (2.0 * b).toModel.unpack = (Float.Model.pack u).unpack := by
    intro u hb hu
    rw [unpack_mul, unpacked_mul_comm, hb, hu]
  cases hb : b.toModel.unpack with
  | notANumber =>
    rw [hspecial _ hb rfl] at h
    exact h
  | infinity s =>
    rw [hspecial _ hb (by cases s <;> rfl)] at h
    cases s <;> exact h
  | zero s =>
    have hzero : (Float.Model.pack (.zero s)).unpack = .zero s := by cases s <;> rfl
    rw [hspecial _ hb (by cases s <;> rfl), hzero] at h
    simp only [sizeCompare, Option.any_some, Nat.isLE_compare] at h ⊢
    omega
  | finite s m e hm =>
    rcases unpack_two_mul hb with ⟨h2, hfull, rfl⟩ | ⟨m', e', hm', h2, hsize⟩
    · rw [h2] at h
      cases s
      · exact h
      · rw [sizeCompare, Option.any_some, Nat.isLE_compare]
        exact ha.half_le hfull
    · rw [h2] at h
      cases s
      · exact h
      · simp only [sizeCompare, Option.any_some, Nat.isLE_compare] at h ⊢
        omega

theorem Halvable.exists_sized {a : Float} (h : Halvable a) : ∃ N, Sized a N := by
  obtain ⟨hfinite, hpos | rfl⟩ := h
  · have hfinite : a.toModel.unpack.isFinite = true := hfinite
    have hpos : (UnpackedFloat.zero .positive).lt a.toModel.unpack = true := of_decide_eq_true hpos
    cases ha : a.toModel.unpack with
    | notANumber => simp [ha, UnpackedFloat.isFinite] at hfinite
    | infinity s => simp [ha, UnpackedFloat.isFinite] at hfinite
    | zero s => simp [ha, UnpackedFloat.lt, UnpackedFloat.compare] at hpos
    | finite s m e hm =>
      cases s
      · simp [ha, UnpackedFloat.lt, UnpackedFloat.compare] at hpos
      · exact ⟨_, .finite ha⟩
  · exact ⟨0, .zero rfl⟩

theorem eq_of_unpack_eq {a b : Float} (h : a.toModel.unpack = b.toModel.unpack) : a = b := by
  obtain ⟨⟨⟨x⟩, hx⟩⟩ := a
  obtain ⟨⟨⟨y⟩, hy⟩⟩ := b
  obtain rfl : x = y := (unpack_inj_of_valid hx hy).mp h
  rfl

theorem Sized.halvable {a : Float} {N : ℕ} (h : Sized a N) : Halvable a := by
  cases h with
  | zero h =>
    obtain rfl : a = 0 := eq_of_unpack_eq h
    exact ⟨rfl, .inr rfl⟩
  | finite h =>
    constructor
    · change a.toModel.unpack.isFinite = true
      rw [h]
      rfl
    · refine .inl (decide_eq_true ?_)
      change (UnpackedFloat.zero .positive).lt a.toModel.unpack = true
      rw [h]
      rfl

theorem Sized.zero_add {a : Float} {N : ℕ} (h : Sized a N) : 0 + a = a := by
  apply eq_of_unpack_eq
  change (Float.Model.pack
    (UnpackedFloat.add .binary64 (.zero .positive) a.toModel.unpack)).unpack = _
  cases h with
  | zero h =>
    rw [h]
    rfl
  | finite h =>
    rw [h]
    exact unpack_pack_finite (isDouble_of_unpack h)

theorem Sized.sub_zero {a : Float} {N : ℕ} (h : Sized a N) : a - 0 = a := by
  apply eq_of_unpack_eq
  change (Float.Model.pack
    (UnpackedFloat.sub .binary64 a.toModel.unpack (.zero .positive))).unpack = _
  cases h with
  | zero h =>
    rw [h]
    rfl
  | finite h =>
    rw [h]
    exact unpack_pack_finite (isDouble_of_unpack h)

theorem mul_comm_double (a b : Float) : a * b = b * a := by
  apply eq_of_unpack_eq
  rw [unpack_mul, unpack_mul, unpacked_mul_comm]

instance halves_double : Halves Float where
  halvable a h := by
    obtain ⟨N, hN⟩ := h.exists_sized
    obtain ⟨N', hN', -⟩ := hN.half
    exact hN'.halvable
  zero_add a h := by
    obtain ⟨N, hN⟩ := h.exists_sized
    exact hN.zero_add
  sub_zero a h := by
    obtain ⟨N, hN⟩ := h.exists_sized
    exact hN.sub_zero
  half_comm a _ := mul_comm_double 0.5 a
  half_le a b h hab := by
    obtain ⟨N, hN⟩ := h.exists_sized
    obtain ⟨N', hN', hle⟩ := hN.half
    exact hN'.le_iff.mpr (any_isLE_of_le (by omega) (hN.le_iff.mp hab))
  half_lt a b h hab := by
    obtain ⟨N, hN⟩ := h.exists_sized
    obtain ⟨N', hN', hle⟩ := hN.half
    exact hN'.lt_iff.mpr (any_isLT_of_le (by omega) (hN.lt_iff.mp hab))
  not_lt_half a b h hab := by
    obtain ⟨N, hN⟩ := h.exists_sized
    obtain ⟨N', hN', hle⟩ := hN.half
    have hbound := any_isLE_of_two_mul hN (hN.le_iff.mp hab)
    exact not_lt_of_le_double (hN'.le_iff.mpr (any_isLE_of_le hle hbound))

end Doubles

end Downhill
