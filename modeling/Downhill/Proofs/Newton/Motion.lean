import Downhill.Direction.Newton
import Downhill.Proofs.Direction.Motion
import Downhill.Proofs.Linear.Congruent

/-! Newton directions in other coordinates. Where the coordinates are only put in another order the
Hessians of a run and of its image get the same shifts, and the directions are images of each
other. -/
open Matrix

namespace Downhill
variable {K : Type} [ExactField K] {n : ℕ}

open Exact

namespace RigidMotion
variable (m : RigidMotion K n)

/-- The coordinates are put in another order. -/
def Permutes : Prop := ∃ e : Equiv.Perm (Fin n), m.rotation = e.permMatrix K

/-- The change of coordinates that puts them in the order of `e`. -/
def reorder (e : Equiv.Perm (Fin n)) (center : Fin n → K) (offset : K) : RigidMotion K n where
  rotation := e.permMatrix K
  orthogonal := by rw [transpose_permMatrix, ← permMatrix_mul, mul_inv_cancel, permMatrix_one]
  center := center
  offset := offset

variable {m}

theorem Permutes.exists_diagonal (hm : m.Permutes) (a : SquareMatrix K n) :
    ∃ e : Equiv.Perm (Fin n), ∀ i, (m.rotationᵀ * a * m.rotation) i i = a (e i) (e i) := by
  obtain ⟨e, he⟩ := hm
  refine ⟨e⁻¹, fun i => ?_⟩
  rw [he, transpose_permMatrix, Equiv.Perm.permMatrix, Equiv.Perm.permMatrix,
    PEquiv.toMatrix_toPEquiv_mul, PEquiv.mul_toMatrix_toPEquiv]
  rfl

/-- There is only one order of at most one coordinate. -/
theorem Permutes.rotation_eq_one (hm : m.Permutes) (hn : n ≤ 1) : m.rotation = 1 := by
  obtain ⟨e, he⟩ := hm
  have : Subsingleton (Fin n) := Fin.subsingleton_iff_le_one.mpr hn
  rw [he, Subsingleton.elim e 1, permMatrix_one]

end RigidMotion

namespace Newton
variable {m : RigidMotion K n}

theorem signs_of_check {s : Newton (Exact K)} (hs : s.check = .ok ()) :
    ¬ s.beta ≤ 0 ∧ ¬ s.growth ≤ 1 := by
  refine ⟨fun h => ?_, fun h => ?_⟩
  · rw [check, if_pos h] at hs
    cases hs
  · simp only [check, if_pos h] at hs
    split_ifs at hs <;> cases hs

variable [TrueRoot K] {o o' : Oracle (Exact K) (Vector (Exact K) n) (Matrix (Exact K) n)}
  {f : (Fin n → K) → K} {g : (Fin n → K) → Fin n → K} {h : (Fin n → K) → SquareMatrix K n}

/-- The equations of Newton with two factors for one shift. -/
theorem matches_solve {a : SquareMatrix K n} (ha : a.IsSymm) (hm : m.Permutes)
    {l l' : Matrix (Exact K) n} {tau : Exact K}
    (hl : ((liftMatrix a).shift tau).cholesky? = some l)
    (hl' : ((liftMatrix (m.rotationᵀ * a * m.rotation)).shift tau).cholesky? = some l')
    (w : Fin n → K) :
    Act.Matches (fun st st' => st' = st) (fun st st' => st' = st) m.Directions
      (Act.ofExcept (Curved.solve l (-lift w)) : Act (State (Exact K)) _ (Vector (Exact K) n) _)
      (Act.ofExcept (Curved.solve l' (-lift (m.turn w)))) := by
  obtain ⟨v, v', hv, hv', hdirections⟩ :=
    exists_solutions_congruent m.orthogonal hm.rotation_eq_one ha hl hl' (-w)
  have hsolve : Curved.solve l (-lift w) = .ok v := by
    rw [neg_lift]
    exact hv
  have hsolve' : Curved.solve l' (-lift (m.turn w)) = .ok v' := by
    rw [neg_lift, ← m.turn_neg]
    exact hv'
  rw [hsolve, hsolve']
  exact .pure hdirections

/-- The two strategies count the same shifts and fall back equally often. -/
theorem matches_direction {s : Newton (Exact K)} (hs : s.check = .ok ()) (hm : m.Permutes)
    (hhessian : m.TurnsHessian h o o') (x : Fin n → K) :
    Act.Matches (fun st st' => st' = st) (fun st st' => st' = st) m.Directions
      (s.direction o (iterateAt f g x)) (s.direction o' (m.iterate (iterateAt f g x))) := by
  obtain ⟨hbeta, hgrowth⟩ := signs_of_check hs
  rw [m.iterate_eq]
  refine .bind (.ofEval (fun _ _ h => h) (hhessian x)) ?_
  rintro _ _ ⟨rfl, rfl⟩
  refine .of_ok (if_pos (allFinite_liftMatrix _)) (if_pos (allFinite_liftMatrix _)) ?_
  have hsymm : Curved.symmetrize (liftMatrix (h x)) =
      (.ok (liftMatrix (symmetricPart (h x))) : Except (Fault (Exact K)) _) :=
    congrArg Except.ok (symmetrize_lift _)
  have hsymm' : Curved.symmetrize (liftMatrix (m.rotationᵀ * h x * m.rotation)) =
      (.ok (liftMatrix (m.rotationᵀ * symmetricPart (h x) * m.rotation)) :
        Except (Fault (Exact K)) _) :=
    congrArg Except.ok ((symmetrize_lift _).trans (by rw [symmetricPart_congruent]))
  refine .of_ok hsymm hsymm' ?_
  obtain rfl | hn := Nat.eq_zero_or_pos n
  · exact .throw (fun _ _ h => h) .emptyDiagonal
  obtain ⟨hfactor, hfactor'⟩ | ⟨l, l', tau, hfactor, hfactor', hl, hl'⟩ :=
    choleskyWithShift_congruent hn m.orthogonal (isSymm_symmetricPart (h x))
      (hm.exists_diagonal _) hbeta hgrowth s.attempts
  · rw [show Curved.factor (liftMatrix (symmetricPart (h x))) s.beta s.growth s.attempts =
      .error (.notPositiveDefinite s.attempts) from hfactor,
      show Curved.factor (liftMatrix (m.rotationᵀ * symmetricPart (h x) * m.rotation)) s.beta
        s.growth s.attempts = .error (.notPositiveDefinite s.attempts) from hfactor']
    refine .bind (.modifyState ?_) fun _ _ _ => .bind (.remark _ _) fun _ _ _ => ?_
    · rintro st _ rfl
      rfl
    · exact .pure (m.directions_neg (g x))
  · rw [show Curved.factor (liftMatrix (symmetricPart (h x))) s.beta s.growth s.attempts =
      .ok (l, tau) from hfactor,
      show Curved.factor (liftMatrix (m.rotationᵀ * symmetricPart (h x) * m.rotation)) s.beta
        s.growth s.attempts = .ok (l', tau) from hfactor']
    have hlast := matches_solve (isSymm_symmetricPart (h x)) hm hl hl' (g x)
    refine .bind (.modifyState ?_) fun _ _ _ =>
      .ite Iff.rfl (fun _ => .bind (.remark _ _) fun _ _ _ => hlast) fun _ => hlast
    rintro st _ rfl
    rfl

/-- Newton directions follow a run and its image, with the same counters. -/
theorem follows {s : Newton (Exact K)} (hs : s.check = .ok ()) (hm : m.Permutes)
    (hhessian : m.TurnsHessian h o o') (f : (Fin n → K) → K) (g : (Fin n → K) → Fin n → K) :
    Strategy.Follows s.strategy m f g o o' (fun st st' => st' = st) (fun st st' => st' = st) where
  left _ _ h := h
  prepare _ st := .inr ⟨st, st, rfl, rfl, rfl⟩
  compute x := matches_direction hs hm hhessian x
  initialStep _ _ := .pure rfl
  update _ _ _ _ _ := .pure trivial
  reset := .pure trivial

end Newton

end Downhill
