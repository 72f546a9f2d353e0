import Downhill.Linear.Euclidean
import Downhill.Proofs.Exact.Basic

/-! Vectors of exact values. A vector of numbers is one of the field, with the same operations. A
scalar product is a number only if all the entries of both vectors are, so a run that knows a slope
works with finite vectors. -/
namespace Downhill.Exact
variable {K : Type} [ExactField K] {n : ℕ} {a b : Exact K} {u v : Vector (Exact K) n} {m c : K}

/-- A vector of the field. -/
def lift (x : Fin n → K) : Vector (Exact K) n := Vector.ofFn fun i => number (x i)

section Lift
variable (x y : Fin n → K)

omit [ExactField K] in
@[simp] theorem getElem_lift (i : ℕ) (h : i < n) : (lift x)[i] = number (x ⟨i, h⟩) := by
  simp [lift]

@[simp] theorem lift_add : lift x + lift y = lift (x + y) := by
  ext i hi
  simp

@[simp] theorem lift_sub : lift x - lift y = lift (x - y) := by
  ext i hi
  simp

@[simp] theorem neg_lift : -lift x = lift (-x) := by
  ext i hi
  simp

@[simp] theorem number_mul_lift : number c * lift x = lift (c • x) := by
  ext i hi
  simp

theorem sum_lift : (lift x).sum = number (∑ i, x i) := by
  rw [← Vector.sum_toList, lift, Vector.toList_ofFn]
  induction n with
  | zero => simp
  | succ n ih =>
    rw [List.ofFn_succ, List.sum_cons, ih fun i => x i.succ, number_add, Fin.sum_univ_succ]

@[simp] theorem dot_lift : dot (lift x) (lift y) = number (x ⬝ᵥ y) := by
  have hzip : Vector.zipWith (· * ·) (lift x) (lift y) = lift fun i => x i * y i := by
    ext i hi
    simp
  rw [dot, hzip, sum_lift, dotProduct]

theorem beq_lift : (lift x == lift y) = true ↔ x = y := by
  rw [Vector.beq_eq_decide]
  simp [funext_iff, Fin.forall_iff]

@[simp] theorem allFinite_lift : allFinite (lift x) = true := by
  simp [allFinite]

end Lift

theorem exists_lift (h : allFinite v = true) : ∃ x, v = lift x := by
  simp only [allFinite, Vector.all_eq_true] at h
  choose x hx using fun i : Fin n => isFinite_iff.mp (h i i.isLt)
  exact ⟨x, by ext i hi; simp [hx ⟨i, hi⟩]⟩

theorem add_eq_number (h : a + b = number m) : ∃ x y, a = number x ∧ b = number y := by
  cases a <;> cases b
  case number.number x y => exact ⟨x, y, rfl, rfl⟩
  case infinity.infinity s t =>
    have h' : (if s = t then infinity s else undefined : Exact K) = number m := h
    split_ifs at h'
  all_goals cases h

theorem mul_eq_number (h : a * b = number m) : ∃ x y, a = number x ∧ b = number y := by
  have hscaled : ∀ s (x : K), scaled s x ≠ number m := by
    intro s x
    unfold scaled
    split_ifs <;> exact nofun
  cases a <;> cases b
  case number.number x y => exact ⟨x, y, rfl, rfl⟩
  case number.infinity => exact absurd h (hscaled _ _)
  case infinity.number => exact absurd h (hscaled _ _)
  all_goals cases h

theorem isFinite_of_sum_eq {xs : List (Exact K)} (h : xs.sum = number m) :
    ∀ a ∈ xs, Scalar.isFinite a = true := by
  induction xs generalizing m with
  | nil => exact nofun
  | cons b xs ih =>
    rw [List.sum_cons] at h
    obtain ⟨y, z, rfl, hz⟩ := add_eq_number h
    rintro a (_ | ⟨_, ha⟩)
    · exact isFinite_number
    · exact ih hz a ha

/-- Only finite vectors have a number as their product. -/
theorem exists_of_dot_eq (h : dot u v = number m) :
    ∃ x y, u = lift x ∧ v = lift y ∧ x ⬝ᵥ y = m := by
  have hfin : ∀ i (hi : i < n), Scalar.isFinite (u[i] * v[i]) = true := by
    rw [dot, ← Vector.sum_toList] at h
    intro i hi
    refine isFinite_of_sum_eq h _ ?_
    rw [Vector.mem_toList_iff, Vector.mem_iff_getElem]
    exact ⟨i, hi, by simp⟩
  have hparts : ∀ i (hi : i < n),
      Scalar.isFinite u[i] = true ∧ Scalar.isFinite v[i] = true := by
    intro i hi
    obtain ⟨z, hz⟩ := isFinite_iff.mp (hfin i hi)
    obtain ⟨x, y, hx, hy⟩ := mul_eq_number hz
    simp [hx, hy]
  obtain ⟨x, rfl⟩ := exists_lift (v := u) (by
    simpa [allFinite] using fun i hi => (hparts i hi).1)
  obtain ⟨y, rfl⟩ := exists_lift (v := v) (by
    simpa [allFinite] using fun i hi => (hparts i hi).2)
  rw [dot_lift] at h
  exact ⟨x, y, rfl, rfl, Exact.number.inj h⟩

/-- A direction that has a number as its product with one vector has one with all finite vectors. -/
theorem exists_dot_eq (h : dot u v = number m) {w : Vector (Exact K) n}
    (hw : allFinite w = true) : ∃ d, dot w v = number d := by
  obtain ⟨_, y, -, rfl, -⟩ := exists_of_dot_eq h
  obtain ⟨z, rfl⟩ := exists_lift hw
  exact ⟨z ⬝ᵥ y, dot_lift z y⟩

@[simp] theorem add_number_zero (a : Exact K) : a + number 0 = a := by
  cases a with
  | number x => simp
  | infinity s => rfl
  | undefined => rfl

/-- A step of length zero along a finite direction leads nowhere. -/
theorem add_number_zero_mul (v : Vector (Exact K) n) (x : Fin n → K) :
    v + (0 : Exact K) * lift x = v := by
  ext i hi
  simp

end Downhill.Exact
