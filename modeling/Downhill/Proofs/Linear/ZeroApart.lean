import Downhill.Proofs.Exact.Basic

/-! What lies above a value that is not negative differs from zero, among doubles as well as in
exact arithmetic. So what passed a threshold can be inverted. -/
namespace Downhill

/-- What lies above a value that is not negative differs from zero. -/
class ZeroApart (α : Type) [Scalar α] : Prop where
  beq_zero : ∀ t a : α, 0 ≤ t → t < a → (a == 0) = false

section Doubles
open Float.Model

/-- What is not below one of the zeros is not below the other one. -/
theorem not_lt_zero_of_zero_le {u : UnpackedFloat} {s r : UnpackedFloat.Sign}
    (h : (UnpackedFloat.zero s).le u = true) : u.lt (.zero r) = false := by
  cases u with
  | notANumber => rfl
  | zero q => rfl
  | infinity q =>
    cases q with
    | positive => rfl
    | negative => cases h
  | finite q m e hm =>
    cases q with
    | positive => rfl
    | negative => cases h

theorem beq_zero_iff {u : UnpackedFloat} {s : UnpackedFloat.Sign} :
    u.beq (.zero s) = true ↔ ∃ r, u = .zero r := by
  cases u with
  | notANumber => simp [UnpackedFloat.beq, UnpackedFloat.compare]
  | zero q => simp [UnpackedFloat.beq, UnpackedFloat.compare]
  | infinity q => cases q <;> simp [UnpackedFloat.beq, UnpackedFloat.compare]
  | finite q m e hm => cases q <;> simp [UnpackedFloat.beq, UnpackedFloat.compare]

theorem unpack_zero : (0 : Float).toModel.unpack = .zero .positive := rfl

theorem beq_zero_double {t a : Float} (h0 : (0 : Float) ≤ t) (h : t < a) :
    (a == (0 : Float)) = false := by
  have hle : (UnpackedFloat.zero .positive).le t.toModel.unpack = true := by
    rw [← unpack_zero]
    exact of_decide_eq_true h0
  have hlt : t.toModel.unpack.lt a.toModel.unpack = true := of_decide_eq_true h
  apply Bool.eq_false_iff.mpr
  intro hbeq
  have hzero : a.toModel.unpack.beq (.zero .positive) = true := by
    rw [← unpack_zero]
    exact hbeq
  obtain ⟨r, hr⟩ := beq_zero_iff.mp hzero
  rw [hr, not_lt_zero_of_zero_le hle] at hlt
  cases hlt

end Doubles

instance zeroApart_double : ZeroApart Float := ⟨fun _ _ => beq_zero_double⟩

instance zeroApart_exact {K : Type} [ExactField K] : ZeroApart (Exact K) := by
  refine ⟨fun t a h0 h => ?_⟩
  have hpos : (0 : Exact K) < a := Exact.lt_of_le_of_lt h0 h
  obtain ⟨x, rfl, hx⟩ | rfl := Exact.eq_of_pos hpos
  · simp [hx.ne']
  · rfl

end Downhill
