import Downhill.Proofs.Problem.Convex
import Downhill.Proofs.Problem.ExactDifference

/-! Central differences of a quadratic function are its derivatives, whatever the moves are. So a
run that fills in what a quadratic problem keeps to itself hears what the problem would have
said. -/
open Matrix

namespace Downhill
variable {K : Type} [ExactField K] {n : ℕ}

open Exact

namespace ConvexQuadratic
variable (q : ConvexQuadratic K n) (x u v : Fin n → K)

def value : K := 1 / (2 : ℕ) * (x ⬝ᵥ q.matrix *ᵥ x) - q.linear ⬝ᵥ x

@[simp] theorem value_objective : q.objective.value (lift x) = number (q.value x) :=
  Quadratic.value_lift q.matrix q.linear x

/-- The function around a point. -/
theorem value_add :
    q.value (x + v) = q.value x + q.gradient x ⬝ᵥ v + 1 / 2 * (v ⬝ᵥ q.matrix *ᵥ v) := by
  rw [value, value, gradient, Nat.cast_ofNat]
  exact Quadratic.value_around q.symm q.linear x v

theorem value_sub :
    q.value (x - v) = q.value x - q.gradient x ⬝ᵥ v + 1 / 2 * (v ⬝ᵥ q.matrix *ᵥ v) := by
  rw [sub_eq_add_neg, value_add, dotProduct_neg, mulVec_neg, neg_dotProduct_neg, sub_eq_add_neg]

theorem gradient_add : q.gradient (x + v) = q.gradient x + q.matrix *ᵥ v := by
  simpa using q.gradient_add_smul x v 1

theorem gradient_sub : q.gradient (x - v) = q.gradient x - q.matrix *ᵥ v := by
  rw [sub_eq_add_neg, gradient_add, mulVec_neg, sub_eq_add_neg]

/-- Across a point the values differ by the slope. -/
theorem value_across : q.value (x + v) - q.value (x - v) = 2 * (q.gradient x ⬝ᵥ v) := by
  rw [value_add, value_sub]
  ring

theorem gradient_across :
    q.gradient (x + v) - q.gradient (x - v) = (2 : K) • q.matrix *ᵥ v := by
  rw [gradient_add, gradient_sub, two_smul]
  abel

theorem value_bend :
    q.value (x + v) - 2 * q.value x + q.value (x - v) = v ⬝ᵥ q.matrix *ᵥ v := by
  rw [value_add, value_sub]
  ring

theorem value_twist :
    q.value (x + u + v) - q.value (x + u - v) - q.value (x - u + v) + q.value (x - u - v) =
      4 * (u ⬝ᵥ q.matrix *ᵥ v) := by
  have hbeside := q.value_across (x + u) v
  have hbeyond := q.value_across (x - u) v
  have hslopes : q.gradient (x + u) ⬝ᵥ v - q.gradient (x - u) ⬝ᵥ v =
      2 * (u ⬝ᵥ q.matrix *ᵥ v) := by
    rw [← sub_dotProduct, gradient_across, smul_dotProduct, smul_eq_mul, dotProduct_comm,
      q.dotProduct_mulVec_comm]
  linear_combination hbeside - hbeyond + 2 * hslopes

theorem single_dotProduct_mulVec_single (i j : Fin n) (h k : K) :
    Pi.single i h ⬝ᵥ q.matrix *ᵥ Pi.single j k = k * (h * q.matrix i j) := by
  simp

/-- The differences are the derivatives. -/
theorem carries : Difference.Carries (fun x y => y = q.value x) (fun x w => w = q.gradient x)
    (fun _ i j y => y = q.matrix i j) fun _ a => a = q.matrix where
  slope eps heps x w hw := by
    funext i
    obtain ⟨_, _, rfl, rfl, hi⟩ := hw i
    have hh := (Difference.moved_pos heps x i).ne'
    rw [hi, value_across, dotProduct_single]
    field_simp
  column eps heps x a ha := by
    have htranspose : a = q.matrix := by
      ext j i
      obtain ⟨_, _, rfl, rfl, hi⟩ := ha i
      have hh := (Difference.moved_pos heps x i).ne'
      have hj := congrFun hi j
      rw [transpose_apply] at hj
      rw [hj, gradient_across]
      simp only [mulVec_single, op_smul_eq_smul, Pi.smul_apply, col_apply, smul_eq_mul]
      field_simp
    rw [htranspose, symmetricPart_of_isSymm q.symm]
  bend eps heps x i middle up down hm hup hdown := by
    subst hm hup hdown
    have hh := (Difference.moved_pos heps x i).ne'
    rw [value_bend, single_dotProduct_mulVec_single]
    field_simp
  twist eps heps x i j a b c d ha hb hc hd := by
    subst ha hb hc hd
    have hi := (Difference.moved_pos heps x i).ne'
    have hj := (Difference.moved_pos heps x j).ne'
    rw [value_twist, single_dotProduct_mulVec_single]
    field_simp
  entries x a ha := by
    ext i j
    have h := ha i j
    rcases le_total i j with hij | hij
    · rwa [min_eq_left hij, max_eq_right hij] at h
    · rw [min_eq_right hij, max_eq_left hij] at h
      rw [h, ← q.symm.apply]

end ConvexQuadratic

/-- The problem is the quadratic one, of which it may keep derivatives to itself. -/
structure Quadratic.Posed {α : Type} [Scalar α] (q : Quadratic α n)
    (p : Problem α (Vector α n) (Matrix α n)) : Prop where
  value : p.value = q.problem.value
  gradient : p.gradient? = none ∨ p.gradient? = q.problem.gradient?
  hessian : p.hessian? = none ∨ p.hessian? = q.problem.hessian?
  converged : p.converged = q.problem.converged
  dimension : ∀ k, p.dimension = some k → (n : ℤ) = k

namespace Quadratic.Posed
variable {q : ConvexQuadratic K n}
  {p : Problem (Exact K) (Vector (Exact K) n) (Matrix (Exact K) n)} (h : q.objective.Posed p)
  (x : Fin n → K)
include h

theorem answers : p.Answers (Embedded number fun v y => y = q.value v)
    (Embedded lift fun v w => w = q.gradient v) (Embedded liftMatrix fun _ a => a = q.matrix) where
  value x := by
    refine ⟨q.objective.value x, congrFun h.value x, ?_⟩
    rintro v rfl
    exact ⟨_, q.value_objective v, rfl⟩
  gradient g hg x := by
    obtain hnone | hsome := h.gradient
    · cases hnone.symm.trans hg
    obtain rfl := Option.some.inj (hsome.symm.trans hg)
    refine ⟨q.objective.gradient x, rfl, ?_⟩
    rintro v rfl
    exact ⟨_, q.gradient_objective v, rfl⟩
  hessian k hk x := by
    obtain hnone | hsome := h.hessian
    · cases hnone.symm.trans hk
    obtain rfl := Option.some.inj (hsome.symm.trans hk)
    exact ⟨q.objective.matrix, rfl, fun _ _ => ⟨_, rfl, rfl⟩⟩

/-- A run hears the values, gradients and Hessians of the field. -/
theorem replies_value (needHessian : Bool) :
    Replies ((p.work n needHessian).value (lift x)) fun a => a = number (q.value x) := by
  refine (h.answers.replies_value (lift x)).mono fun a ha => ?_
  obtain ⟨_, rfl, rfl⟩ := ha x rfl
  rfl

theorem replies_gradient (needHessian : Bool) :
    Replies ((p.work n needHessian).gradient (lift x)) fun v => v = lift (q.gradient x) := by
  refine (h.answers.replies_gradient_embedded q.carries (lift x) needHessian).mono fun v hv => ?_
  obtain ⟨_, rfl, rfl⟩ := hv x rfl
  rfl

theorem replies_hessian :
    Replies ((p.work n true).hessian (lift x)) fun m => m = liftMatrix q.matrix := by
  refine (h.answers.replies_hessian_embedded q.carries (lift x)).mono fun m hm => ?_
  obtain ⟨_, rfl, rfl⟩ := hm x rfl
  rfl

end Quadratic.Posed

end Downhill
