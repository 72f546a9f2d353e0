import Downhill.Proofs.Linear.Congruent
import Downhill.Proofs.Newton.Direction
import Downhill.Proofs.Problem.Affine

/-! Newton directions in affine coordinates. A Hessian that is positive definite stays so, the
factorization needs no shift in either coordinates, and the equation of Newton is solved by a
direction and by its image. -/
open Matrix

namespace Downhill
variable {K : Type} [ExactField K] {n : ℕ}

open Exact

/-- The quadratic form of a matrix is positive. -/
def Definite (a : SquareMatrix K n) : Prop := ∀ v, v ≠ 0 → 0 < v ⬝ᵥ a *ᵥ v

namespace AffineChange
variable (m : AffineChange K n) {a : SquareMatrix K n}

theorem matrix_mulVec_ne_zero {v : Fin n → K} (hv : v ≠ 0) : m.matrix *ᵥ v ≠ 0 := by
  intro hzero
  refine hv ?_
  rw [← one_mulVec v, ← m.inverse_mul, ← mulVec_mulVec, hzero, mulVec_zero]

theorem congruent_mulVec (z : Fin n → K) :
    (m.matrixᵀ * a * m.matrix) *ᵥ z = m.pull (a *ᵥ m.matrix *ᵥ z) := by
  rw [← mulVec_mulVec, ← mulVec_mulVec, pull]

/-- The quadratic form in the new coordinates. -/
theorem form_congruent (z : Fin n → K) :
    z ⬝ᵥ (m.matrixᵀ * a * m.matrix) *ᵥ z = (m.matrix *ᵥ z) ⬝ᵥ a *ᵥ m.matrix *ᵥ z := by
  rw [congruent_mulVec, dotProduct_comm, pull_dotProduct, dotProduct_comm]

theorem definite_congruent (ha : Definite a) : Definite (m.matrixᵀ * a * m.matrix) := by
  intro v hv
  rw [form_congruent]
  exact ha _ (m.matrix_mulVec_ne_zero hv)

/-- What a matrix does to a direction it does in the new coordinates to the image. -/
theorem congruent_mulVec_push (d : Fin n → K) :
    (m.matrixᵀ * a * m.matrix) *ᵥ m.push d = m.pull (a *ᵥ d) := by
  rw [congruent_mulVec, matrix_mulVec_push]

end AffineChange

/-- The image of the solution of Newton's equation is the one solution in the new coordinates. -/
theorem AffineChange.push_eq_of_solves (m : AffineChange K n) {a : SquareMatrix K n}
    (hsymm : a.IsSymm) (ha : Definite a) {v v' w : Fin n → K} (hv : a *ᵥ v = -w)
    (hv' : (m.matrixᵀ * a * m.matrix) *ᵥ v' = -m.pull w) : m.push v = v' := by
  let q : ConvexQuadratic K n := ⟨_, 0, isSymm_congruent hsymm, m.definite_congruent ha⟩
  apply q.mulVec_injective
  change (m.matrixᵀ * a * m.matrix) *ᵥ m.push v = (m.matrixᵀ * a * m.matrix) *ᵥ v'
  rw [hv', m.congruent_mulVec_push, hv, m.pull_neg]

/-- The direction that solves the equation of Newton descends. -/
theorem Definite.descends {a : SquareMatrix K n} (ha : Definite a) {v w : Fin n → K}
    (hv : a *ᵥ v = -w) (hw : w ≠ 0) : w ⬝ᵥ v < 0 := by
  have hne : v ≠ 0 := by
    rintro rfl
    rw [mulVec_zero, eq_comm, neg_eq_zero] at hv
    exact hw hv
  have hpos := ha v hne
  rw [hv, dotProduct_neg, dotProduct_comm] at hpos
  exact neg_pos.mp hpos

namespace Newton
variable {s : Newton (Exact K)} {o : Oracle (Exact K) (Vector (Exact K) n) (Matrix (Exact K) n)}

/-- Without coordinates there is no direction. -/
theorem yields_direction_empty {o : Oracle (Exact K) (Vector (Exact K) 0) (Matrix (Exact K) 0)}
    (x : Iterate (Exact K) (Vector (Exact K) 0)) :
    Yields (s.direction o x) fun _ => False := by
  refine .bind .any fun h _ => .bind .any fun _ _ => .bind .any fun a _ => ?_
  exact Yields.throw (Fault.emptyDiagonal : Fault (Exact K))

/-- Where the Hessian is positive definite the direction solves the equation of Newton, in every
state. -/
theorem exists_direction [TrueRoot K] (hs : s.check = .ok ()) (hn : 0 < n) {a : SquareMatrix K n}
    (hsymm : a.IsSymm) (ha : Definite a) {x : Iterate (Exact K) (Vector (Exact K) n)}
    {g : Fin n → K} (hx : x.gradient = lift g)
    (ho : Replies (o.hessian x.point) fun m => m = liftMatrix a) : ∃ v, a *ᵥ v = -g ∧
      Replies (s.direction o x) fun d => d = lift v := by
  let q : ConvexQuadratic K n := ⟨a, -g, hsymm, ha⟩
  refine ⟨q.minimizer, q.mulVec_minimizer, fun t _ => ?_⟩
  have hdirection := surely_direction_of_pos hs hn q hx ho q.mulVec_minimizer t.1
  exact Surely.imp hdirection (fun _ _ h => h.1) t rfl

/-- Where the Hessian is positive definite the strategy fails or proposes the direction that solves
the equation of Newton. It fails where there are no coordinates. -/
theorem direction_cases [TrueRoot K] (hs : s.check = .ok ()) {a : SquareMatrix K n}
    (hsymm : a.IsSymm) (ha : Definite a) {x : Iterate (Exact K) (Vector (Exact K) n)}
    {g : Fin n → K} (hx : x.gradient = lift g)
    (ho : Replies (o.hessian x.point) fun m => m = liftMatrix a)
    (t : State (Exact K) × Ledger (Exact K) (Vector (Exact K) n)) :
    (∃ e, ((s.direction o x).run.run t).1 = .error e) ∨
      ∃ v, a *ᵥ v = -g ∧ ((s.direction o x).run.run t).1 = .ok (lift v) := by
  obtain rfl | hn := Nat.eq_zero_or_pos n
  · have hnone := yields_direction_empty (s := s) (o := o) x t trivial
    cases hanswer : ((s.direction o x).run.run t).1 with
    | error e => exact .inl ⟨e, rfl⟩
    | ok d =>
      rw [hanswer] at hnone
      exact hnone.elim
  · obtain ⟨v, hv, hdirection⟩ := exists_direction hs hn hsymm ha hx ho
    obtain ⟨_, u, hrun, rfl⟩ := hdirection.exists_answer t
    exact .inr ⟨v, hv, congrArg Prod.fst hrun⟩

end Newton

end Downhill
