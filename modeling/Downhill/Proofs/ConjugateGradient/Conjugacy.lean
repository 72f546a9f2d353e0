import Downhill.Proofs.Problem.Convex

/-! Conjugate gradients with exact steps, in the field: every direction turns the steepest one by
the last. The gradients are orthogonal, so that there are no more of them than dimensions, and the
directions are conjugate. -/
open Matrix

namespace Downhill.ConvexQuadratic
variable {K : Type} [ExactField K] {n : ℕ} (q : ConvexQuadratic K n) (x : Fin n → K)

open Exact

/-- Point and direction after `k` exact steps. -/
def course : ℕ → (Fin n → K) × (Fin n → K)
  | 0 => (x, -q.gradient x)
  | k + 1 =>
    let (y, d) := course k
    let z := y + q.exactStep y d • d
    (z, -q.gradient z + (q.gradient z ⬝ᵥ q.gradient z / (q.gradient y ⬝ᵥ q.gradient y)) • d)

def point (k : ℕ) : Fin n → K := (q.course x k).1

def direction (k : ℕ) : Fin n → K := (q.course x k).2

/-- The gradient after `k` steps. -/
def residual (k : ℕ) : Fin n → K := q.gradient (q.point x k)

/-- The length of step number `k`. -/
def length (k : ℕ) : K := q.exactStep (q.point x k) (q.direction x k)

/-- The share of the last direction in the next one. -/
def turn (k : ℕ) : K :=
  q.residual x (k + 1) ⬝ᵥ q.residual x (k + 1) / (q.residual x k ⬝ᵥ q.residual x k)

theorem point_succ (k : ℕ) :
    q.point x (k + 1) = q.point x k + q.length x k • q.direction x k := rfl

theorem direction_zero : q.direction x 0 = -q.residual x 0 := rfl

theorem direction_succ (k : ℕ) :
    q.direction x (k + 1) = -q.residual x (k + 1) + q.turn x k • q.direction x k := rfl

theorem residual_succ (k : ℕ) : q.residual x (k + 1) =
    q.residual x k + q.length x k • q.matrix *ᵥ q.direction x k := by
  rw [residual, point_succ, gradient_add_smul, residual]

/-- What is orthogonal to the directions so far is orthogonal to the gradients so far. -/
theorem dotProduct_residual {u : Fin n → K} {k : ℕ} (h : ∀ j ≤ k, u ⬝ᵥ q.direction x j = 0) :
    ∀ j ≤ k, u ⬝ᵥ q.residual x j = 0 := by
  intro j hj
  cases j with
  | zero => simpa [direction_zero] using h 0 hj
  | succ j =>
    have hturn := h (j + 1) hj
    rwa [direction_succ, dotProduct_add, dotProduct_smul, h j (Nat.le_of_succ_le hj), smul_zero,
      add_zero, dotProduct_neg, neg_eq_zero] at hturn

/-- What the steps before number `k` have achieved. -/
structure Conjugate (k : ℕ) : Prop where
  slope : ∀ i ≤ k, q.residual x i ⬝ᵥ q.direction x i = -(q.residual x i ⬝ᵥ q.residual x i)
  descended : ∀ j < k, q.residual x k ⬝ᵥ q.direction x j = 0
  orthogonal : ∀ j < k, q.residual x k ⬝ᵥ q.residual x j = 0
  conjugate : ∀ j < k, q.direction x k ⬝ᵥ q.matrix *ᵥ q.direction x j = 0

namespace Conjugate
variable {q x} {i k : ℕ} (h : q.Conjugate x k)
include h

theorem slope_neg (hi : i ≤ k) (hne : q.residual x i ≠ 0) :
    q.residual x i ⬝ᵥ q.direction x i < 0 := by
  rw [h.slope i hi, neg_lt_zero]
  exact dotProduct_self_pos hne

theorem direction_ne_zero (hi : i ≤ k) (hne : q.residual x i ≠ 0) : q.direction x i ≠ 0 := by
  intro hzero
  have hslope := h.slope_neg hi hne
  rw [hzero, dotProduct_zero] at hslope
  exact hslope.false

theorem curvature_pos (hi : i ≤ k) (hne : q.residual x i ≠ 0) :
    0 < q.direction x i ⬝ᵥ q.matrix *ᵥ q.direction x i :=
  q.pos _ (h.direction_ne_zero hi hne)

theorem length_eq (hi : i ≤ k) : q.length x i = q.residual x i ⬝ᵥ q.residual x i /
    (q.direction x i ⬝ᵥ q.matrix *ᵥ q.direction x i) := by
  change -(q.residual x i ⬝ᵥ q.direction x i) / _ = _
  rw [h.slope i hi, neg_neg]

theorem length_pos (hi : i ≤ k) (hne : q.residual x i ≠ 0) : 0 < q.length x i := by
  rw [h.length_eq hi]
  exact div_pos (dotProduct_self_pos hne) (h.curvature_pos hi hne)

/-- A step along a direction leaves the curvature along it in the gradient. -/
theorem dotProduct_curvature (hi : i ≤ k) (hne : q.residual x i ≠ 0) (u : Fin n → K) :
    u ⬝ᵥ q.matrix *ᵥ q.direction x i =
      (u ⬝ᵥ q.residual x (i + 1) - u ⬝ᵥ q.residual x i) / q.length x i := by
  have hlength := (h.length_pos hi hne).ne'
  rw [residual_succ, dotProduct_add, dotProduct_smul, add_sub_cancel_left, smul_eq_mul,
    mul_div_cancel_left₀ _ hlength]

theorem descended_succ (hne : q.residual x k ≠ 0) :
    ∀ j ≤ k, q.residual x (k + 1) ⬝ᵥ q.direction x j = 0 := by
  intro j hj
  obtain rfl | hj := hj.eq_or_lt
  · exact q.gradient_exactStep _ (h.direction_ne_zero le_rfl hne)
  · rw [residual_succ, add_dotProduct, h.descended j hj, smul_dotProduct, dotProduct_comm,
      q.dotProduct_mulVec_comm, h.conjugate j hj, smul_zero, add_zero]

/-- The next gradient is orthogonal to the earlier ones, so only the last step is felt by the next
direction, and there the turn makes up for it. -/
theorem conjugate_succ (hne : ∀ j ≤ k, q.residual x j ≠ 0)
    (horth : ∀ j ≤ k, q.residual x (k + 1) ⬝ᵥ q.residual x j = 0) :
    ∀ j ≤ k, q.direction x (k + 1) ⬝ᵥ q.matrix *ᵥ q.direction x j = 0 := by
  intro j hj
  rw [direction_succ, add_dotProduct, neg_dotProduct, smul_dotProduct, smul_eq_mul,
    h.dotProduct_curvature hj (hne j hj), horth j hj]
  obtain rfl | hlt := hj.eq_or_lt
  · have hcurve := (h.curvature_pos le_rfl (hne j hj)).ne'
    have hself := (dotProduct_self_pos (hne j hj)).ne'
    rw [h.length_eq le_rfl, turn]
    field_simp
    ring
  · rw [horth (j + 1) hlt, h.conjugate j hlt]
    simp

theorem succ (hne : ∀ j ≤ k, q.residual x j ≠ 0) : q.Conjugate x (k + 1) := by
  have hdescended := h.descended_succ (hne k le_rfl)
  have horth := q.dotProduct_residual x hdescended
  refine ⟨fun i hi => ?_, fun j hj => hdescended j (Nat.le_of_lt_succ hj),
    fun j hj => horth j (Nat.le_of_lt_succ hj),
    fun j hj => h.conjugate_succ hne horth j (Nat.le_of_lt_succ hj)⟩
  obtain rfl | hi := hi.eq_or_lt
  · rw [direction_succ, dotProduct_add, dotProduct_smul, hdescended k le_rfl, smul_zero, add_zero,
      dotProduct_neg]
  · exact h.slope i (Nat.le_of_lt_succ hi)

end Conjugate

variable {q x}

theorem conjugate_of_ne_zero {k : ℕ} (hne : ∀ j < k, q.residual x j ≠ 0) : q.Conjugate x k := by
  induction k with
  | zero =>
    refine ⟨fun i hi => ?_, nofun, nofun, nofun⟩
    rw [Nat.le_zero.mp hi, direction_zero, dotProduct_neg]
  | succ k ih =>
    exact (ih fun j hj => hne j (Nat.lt_succ_of_lt hj)).succ fun j hj =>
      hne j (Nat.lt_succ_of_le hj)

/-- Before the first gradient that is zero, gradients are orthogonal and directions conjugate. -/
theorem pairwise_conjugate {k : ℕ} (hne : ∀ j < k, q.residual x j ≠ 0) :
    ∀ i < k, ∀ j < k, i ≠ j → q.residual x i ⬝ᵥ q.residual x j = 0 ∧
      q.direction x i ⬝ᵥ q.matrix *ᵥ q.direction x j = 0 := by
  have key : ∀ i < k, ∀ j < i, q.residual x i ⬝ᵥ q.residual x j = 0 ∧
      q.direction x i ⬝ᵥ q.matrix *ᵥ q.direction x j = 0 := by
    intro i hi j hj
    have h := conjugate_of_ne_zero fun j hj => hne j (hj.trans hi)
    exact ⟨h.orthogonal j hj, h.conjugate j hj⟩
  intro i hi j hj hij
  obtain hlt | hlt := hij.lt_or_gt
  · obtain ⟨horth, hconj⟩ := key j hj i hlt
    exact ⟨by rw [dotProduct_comm, horth], by rw [q.dotProduct_mulVec_comm, hconj]⟩
  · exact key i hi j hlt

/-- Orthogonal vectors other than zero are independent. -/
theorem linearIndependent_residual {k : ℕ} (hne : ∀ j < k, q.residual x j ≠ 0) :
    LinearIndependent K fun i : Fin k => q.residual x i := by
  rw [Fintype.linearIndependent_iff]
  intro c hc i
  have hi : (∑ j, c j • q.residual x j) ⬝ᵥ q.residual x i =
      c i * (q.residual x i ⬝ᵥ q.residual x i) := by
    rw [sum_dotProduct, Finset.sum_eq_single i]
    · rw [smul_dotProduct, smul_eq_mul]
    · intro j _ hj
      have hij : (j : ℕ) ≠ i := fun h => hj (Fin.ext h)
      rw [smul_dotProduct, (pairwise_conjugate hne j j.isLt i i.isLt hij).1, smul_zero]
    · exact fun h => absurd (Finset.mem_univ i) h
  rw [hc, zero_dotProduct] at hi
  exact (mul_eq_zero.mp hi.symm).resolve_right (dotProduct_self_pos (hne i i.isLt)).ne'

variable (q x) in
/-- There are at most as many steps as dimensions. -/
theorem exists_residual_eq_zero :
    ∃ k ≤ n, q.residual x k = 0 ∧ ∀ j < k, q.residual x j ≠ 0 := by
  have hsome : ∃ k, q.residual x k = 0 := by
    by_contra hnone
    have hcard := (linearIndependent_residual (q := q) (x := x) (k := n + 1)
      fun j _ hj => hnone ⟨j, hj⟩).fintype_card_le_finrank
    simp at hcard
  classical
  refine ⟨Nat.find hsome, ?_, Nat.find_spec hsome, fun j hj => Nat.find_min hsome hj⟩
  have hcard := (linearIndependent_residual (q := q) (x := x)
    fun j hj => Nat.find_min hsome hj).fintype_card_le_finrank
  simpa using hcard

end Downhill.ConvexQuadratic
