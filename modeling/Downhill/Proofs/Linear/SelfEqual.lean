import Downhill.Proofs.Exact.Vector
import Downhill.Tensor.Space

/-! Which points are equal to themselves. The comparison of numbers is that of doubles, and a value
that is no number differs from itself; the opposite of a finite point does not. -/
namespace Downhill

/-- The opposite of a finite point is equal to itself. -/
class SelfEqual (α : outParam Type) (V : Type) [Scalar α] [Space α V] : Prop where
  neg_beq_neg : ∀ v : V, Space.finite v = true → (-v == -v) = true

section Doubles
open Float.Model

theorem isNaNBits_packComponents (s : UnpackedFloat.Sign) (e : BitVec 11) (m : BitVec 52) :
    UnpackedFloat.isNaNBits (UnpackedFloat.packComponents Format.binary64 s e m) =
      decide (e = -1 ∧ m ≠ 0) := by
  simp [UnpackedFloat.isNaNBits]

/-- An exponent below the largest one is not the one with all bits set. -/
theorem ofNat_ne_allOnes {k : ℕ} (h : ¬ 2 ^ 11 ≤ k + 1) : BitVec.ofNat 11 k ≠ -1 := by
  intro heq
  have hnat := congrArg BitVec.toNat heq
  rw [BitVec.toNat_ofNat, Nat.mod_eq_of_lt (by omega)] at hnat
  have hones : (-1 : BitVec 11).toNat = 2047 := rfl
  omega

/-- Bits that belong to no number are those of the value that is none. -/
theorem isNaNBits_pack {u : UnpackedFloat} (h : u ≠ .notANumber) :
    UnpackedFloat.isNaNBits (u.pack Format.binary64) = false := by
  cases u with
  | notANumber => exact absurd rfl h
  | infinity s => simp [UnpackedFloat.pack, UnpackedFloat.packedInfinity, isNaNBits_packComponents]
  | zero s => simp [UnpackedFloat.pack, UnpackedFloat.packedZero, isNaNBits_packComponents]
  | finite s m e hm =>
    simp only [UnpackedFloat.pack]
    split_ifs with hlarge
    · simp [UnpackedFloat.packedInfinity, isNaNBits_packComponents]
    · rw [isNaNBits_packComponents, decide_eq_false_iff_not]
      exact fun hbits => ofNat_ne_allOnes hlarge hbits.1
    · simp [isNaNBits_packComponents]

theorem neg_beq_neg_double {a : Float} (h : a.isFinite = true) : (-a == -a) = true := by
  have hnumber : a.toModel.unpack.neg ≠ .notANumber := by
    have hfin : a.toModel.unpack.isFinite = true := h
    cases hu : a.toModel.unpack <;> simp_all [UnpackedFloat.neg, UnpackedFloat.isFinite]
  have hne : a.toModel.unpack.neg.pack Format.binary64 ≠ UnpackedFloat.packedNaN _ := by
    intro heq
    have hbits := isNaNBits_pack hnumber
    rw [heq, UnpackedFloat.isNaNBits_packedNaN] at hbits
    cases hbits
  have hvalid : Format.binary64.Valid (a.toModel.unpack.neg.pack Format.binary64) :=
    UnpackedFloat.valid_pack
  exact (UnpackedFloat.unpack_beq_unpack_iff hvalid hvalid).mpr ⟨hne, hne, .inl rfl⟩

end Doubles

theorem neg_beq_neg_exact {K : Type} [ExactField K] {a : Exact K}
    (h : Scalar.isFinite a = true) : (-a == -a) = true := by
  obtain ⟨x, rfl⟩ := Exact.isFinite_iff.mp h
  simp

section Points
variable {α : Type} [Scalar α] (h : ∀ a : α, Scalar.isFinite a = true → (-a == -a) = true)
include h

theorem neg_beq_neg_entries (a : Array α) (ha : a.all Scalar.isFinite = true) :
    (a.map (-·) == a.map (-·)) = true := by
  rw [Array.all_eq_true] at ha
  simpa [Array.beq_eq_decide] using fun i hi => h _ (ha i hi)

theorem neg_beq_neg_vector {n : ℕ} (v : Vector α n) (hv : Space.finite v = true) :
    (-v == -v) = true := by
  have hfin : ∀ i (hi : i < n), Scalar.isFinite v[i] = true := by
    simpa [allFinite] using hv
  simpa [Vector.beq_eq_decide] using fun i hi => h _ (hfin i hi)

theorem neg_beq_neg_tensor (t : Tensor α) (ht : Space.finite t = true) : (-t == -t) = true := by
  have hentries := neg_beq_neg_entries h t.entries ht
  change (t.shape == t.shape && _) = true
  rw [beq_self_eq_true, Bool.true_and]
  exact hentries

end Points

instance selfEqual_double {n : ℕ} : SelfEqual Float (Vector Float n) :=
  ⟨neg_beq_neg_vector fun _ => neg_beq_neg_double⟩

instance selfEqual_exact {K : Type} [ExactField K] {n : ℕ} :
    SelfEqual (Exact K) (Vector (Exact K) n) :=
  ⟨neg_beq_neg_vector fun _ => neg_beq_neg_exact⟩

instance selfEqual_array : SelfEqual Float (Tensor Float) :=
  ⟨neg_beq_neg_tensor fun _ => neg_beq_neg_double⟩

end Downhill
