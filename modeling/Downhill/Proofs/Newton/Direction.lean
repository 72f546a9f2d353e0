import Downhill.Direction.Newton
import Downhill.Proofs.Direction.Reliable
import Downhill.Proofs.Linear.Shifted
import Downhill.Proofs.Problem.Convex

/-! Newton directions exist wherever the Hessian is finite. Whatever the shift, a factor that was
found can be solved with; where none is found the direction is steepest descent. -/
open Matrix

namespace Downhill
variable {K : Type} [ExactField K] [SoundRoot K] {n : ℕ}

open Exact

namespace Newton
variable (s : Newton (Exact K)) {o : Oracle (Exact K) (Vector (Exact K) n) (Matrix (Exact K) n)}
  {x : Iterate (Exact K) (Vector (Exact K) n)} {g : Fin n → K}

/-- The only fault is a Hessian that is not finite. With parameters that are numbers the direction
is a vector of the field. -/
theorem ensures_direction {Q : Matrix (Exact K) n → Prop} (hn : 0 < n) (hx : x.gradient = lift g)
    (ho : Replies (o.hessian x.point) Q) :
    Ensures (fun _ => True) (s.direction o x)
      (Mildly (fun _ => ∃ m, Q m ∧ m.allFinite = false) fun d _ =>
        Scalar.isFinite s.beta = true → Scalar.isFinite s.growth = true → ∃ v, d = lift v) := by
  have hhessian : Ensures (fun _ => True)
      (Act.ofEval (o.hessian x.point) : Act (State (Exact K)) _ _ _) _ :=
    Act.ensures_ofEval (I := fun _ => True) ho
  refine Surely.bind hhessian fun m => ?_
  refine Mildly.bind (R := fun _ _ => m.allFinite = true) (fun t hm => ?_) fun _ => ?_
  · cases hfin : m.allFinite with
    | true =>
      rw [show Curved.finite m = true from hfin]
      exact rfl
    | false =>
      rw [show Curved.finite m = false from hfin]
      exact ⟨rfl, m, hm.1, hfin⟩
  refine .of_known (R := fun _ => True) (fun _ ht => ⟨ht, trivial⟩) fun hfin => ?_
  obtain ⟨a, rfl⟩ := exists_liftMatrix hfin
  refine Act.ensures_ofExcept_bind (b := liftMatrix (symmetricPart a))
    (congrArg Except.ok (symmetrize_lift a)) (Surely.mildly ?_)
  obtain ⟨l, tau, hfactor, hsolve⟩ | hfactor :=
    choleskyWithShift_cases hn (symmetricPart a) s.beta s.growth s.attempts
  · obtain ⟨d, hd, hfin⟩ := hsolve (-g)
    have hsolution : Curved.solve l (-x.gradient) = .ok d := by
      rw [hx, neg_lift]
      exact hd
    rw [show Curved.factor (liftMatrix (symmetricPart a)) s.beta s.growth s.attempts =
      .ok (l, tau) from hfactor]
    refine Surely.bind (R := fun _ _ => True) (fun _ _ => trivial) fun _ => ?_
    refine .ite (fun _ => Surely.bind (R := fun _ _ => True) (fun _ _ => trivial) fun _ => ?_)
      fun _ => ?_
    all_goals
      rw [hsolution]
      exact fun _ _ hbeta hgrowth => exists_lift (hfin hbeta hgrowth)
  · rw [show Curved.factor (liftMatrix (symmetricPart a)) s.beta s.growth s.attempts =
      .error (.notPositiveDefinite s.attempts) from hfactor]
    rw [hx]
    exact fun _ _ _ _ => ⟨-g, neg_lift g⟩

/-- The Hessian of a run is found at every point. -/
theorem reliable (hn : 0 < n) (ho : ∀ v, Replies (o.hessian v) fun _ => True) :
    s.strategy.Reliable o fun _ => True where
  compute x _ hx := Mildly.imp (ensures_direction s hn hx (ho x.point)) (fun _ _ => trivial)
    fun _ _ _ => trivial
  reset _ _ := trivial
  initialStep _ _ _ _ _ _ := ⟨trivial, fun _ h => by cases h⟩
  update _ _ _ _ _ _ _ _ := trivial

/-- The direction at a gradient of zero is finite, and the search is left to refuse it. -/
theorem stalls (hn : 0 < n) (hbeta : Scalar.isFinite s.beta = true)
    (hgrowth : Scalar.isFinite s.growth = true)
    (ho : ∀ v, Space.finite v = true → Replies (o.hessian v) fun m => m.allFinite = true) :
    s.strategy.Stalls o (fun _ => True) (fun _ => True) (.notDescent 0) where
  raised := rfl
  compute x hfin hx := by
    have h := Mildly.surely (ensures_direction s hn hx (ho x.point hfin)) ?_
    · exact Surely.imp h fun _ _ hd => ⟨trivial, hd hbeta hgrowth⟩
    · rintro t ⟨m, hm, hno⟩
      rw [hm] at hno
      cases hno
  reset _ _ := trivial
  initialStep _ _ := .inr ⟨rfl, rfl⟩

end Newton

end Downhill

/-! Newton directions at a positive definite Hessian. The matrix is factorized as it is, so that the
direction solves the equation of Newton and no shift is counted. -/
namespace Downhill
variable {K : Type} [ExactField K] [TrueRoot K] {n : ℕ}

open Exact

namespace Newton

omit [TrueRoot K] in
/-- A factorization without a shift leaves no trace. -/
@[simp] theorem record_zero : (fresh : State (Exact K)).record 0 = fresh := by
  have hzero : ¬ (0 : Exact K) < 0 := Exact.lt_irrefl 0
  rw [State.record, if_neg hzero]
  rfl

variable {s : Newton (Exact K)} {o : Oracle (Exact K) (Vector (Exact K) n) (Matrix (Exact K) n)}
  {x : Iterate (Exact K) (Vector (Exact K) n)} {g v : Fin n → K}

omit [TrueRoot K] in
theorem attempts_of_check (h : s.check = .ok ()) : 1 ≤ s.attempts := by
  by_contra hno
  have hless : s.attempts < 1 := not_le.mp hno
  simp only [check, if_pos hless] at h
  split_ifs at h <;> cases h

omit [TrueRoot K] in
theorem check_standard : (standard : Newton (Exact K)).check = .ok () := by
  have hbase : ¬ (Matrix.defaultShiftBase : Exact K) ≤ 0 := fun h =>
    absurd (number_le.mp h) (by norm_num)
  have hgrowth : ¬ (Matrix.defaultShiftGrowth : Exact K) ≤ 1 := fun h =>
    absurd (number_le.mp h) (by norm_num)
  exact (if_neg hbase).trans ((if_neg hgrowth).trans rfl)

/-- The direction is the one that solves the equation of Newton, whatever was counted before. -/
theorem surely_direction_of_pos (hs : s.check = .ok ()) (hn : 0 < n) (q : ConvexQuadratic K n)
    (hx : x.gradient = lift g) (ho : Replies (o.hessian x.point) fun m => m = liftMatrix q.matrix)
    (hv : q.matrix *ᵥ v = -g) (st : State (Exact K)) :
    Ensures (fun t => t.1 = st) (s.direction o x)
      (Surely fun d t => d = lift v ∧ t.1 = st.record 0) := by
  have hhessian : Ensures (fun t => t.1 = st)
      (Act.ofEval (o.hessian x.point) : Act (State (Exact K)) _ _ _) _ :=
    Act.ensures_ofEval (I := fun st' => st' = st) ho
  obtain ⟨f, hfactor, htri, hprod⟩ :=
    choleskyWithShift_of_pos hn q.symm q.pos s.beta s.growth (attempts_of_check hs)
  obtain ⟨w, hw, hsolves⟩ := htri.exists_solveFactor (-g)
  obtain rfl : w = v := q.mulVec_injective (by rw [hv, ← hsolves, hprod])
  refine Surely.bind hhessian fun m => .of_fact fun hm => ?_
  subst hm
  refine Act.ensures_ofExcept_bind (b := ()) (if_pos (allFinite_liftMatrix _)) ?_
  have hsymmetric : Curved.symmetrize (liftMatrix q.matrix) =
      (.ok (liftMatrix q.matrix) : Except (Fault (Exact K)) _) :=
    congrArg Except.ok ((symmetrize_lift _).trans (by rw [symmetricPart_of_isSymm q.symm]))
  refine Act.ensures_ofExcept_bind hsymmetric ?_
  rw [show Curved.factor (liftMatrix q.matrix) s.beta s.growth s.attempts =
    .ok (liftMatrix f, 0) from hfactor]
  refine Surely.bind (R := fun _ t => t.1 = st.record 0) ?_ fun _ => ?_
  · rintro t rfl
    exact rfl
  refine .ite (fun h => absurd h (Exact.lt_irrefl 0)) fun _ => ?_
  have hsolution : Curved.solve (liftMatrix f) (-x.gradient) = .ok (lift w) := by
    rw [hx, neg_lift]
    exact hw
  rw [hsolution]
  exact fun t ht => ⟨rfl, ht⟩

/-- The same where nothing was counted yet: nothing is counted. -/
theorem surely_direction_definite (hs : s.check = .ok ()) (hn : 0 < n) (q : ConvexQuadratic K n)
    (hx : x.gradient = lift g) (ho : Replies (o.hessian x.point) fun m => m = liftMatrix q.matrix)
    (hv : q.matrix *ᵥ v = -g) :
    Ensures (fun t => t.1 = fresh) (s.direction o x)
      (Surely fun d t => d = lift v ∧ t.1 = fresh) := by
  have h := surely_direction_of_pos hs hn q hx ho hv fresh
  rwa [record_zero] at h

end Newton

end Downhill
