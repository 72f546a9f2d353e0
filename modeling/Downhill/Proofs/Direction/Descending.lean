import Downhill.Proofs.ConjugateGradient.Reliable
import Downhill.Proofs.Newton.Direction
import Downhill.Proofs.QuasiNewton.Reliable

/-! The directions of the library descend. Conjugate directions are checked, and steepest descent
takes their place; the curvature pairs of a sound ring stand for a positive definite matrix, and so
does every factor of a shifted Hessian. -/
namespace Downhill
variable {σ K M : Type} [ExactField K] {n : ℕ}

open Exact

/-- From a state with `I`, a direction at a finite gradient other than zero descends. -/
def Strategy.Descends (s : Strategy σ (Exact K) (Vector (Exact K) n) M)
    (o : Oracle (Exact K) (Vector (Exact K) n) M) (I : σ → Prop) : Prop :=
  ∀ x g, g ≠ 0 → x.gradient = lift g →
    Ensures (fun t => I t.1) (s.compute o x) (Answered fun v _ => Space.inner x.gradient v < 0)

theorem inner_neg_self {x : Vector (Exact K) n} {g : Fin n → K} (hg : g ≠ 0) (hx : x = lift g) :
    Space.inner x (-x) < 0 := by
  subst hx
  rw [neg_lift, Space.inner_vector, dot_lift, dotProduct_neg]
  exact number_lt.mpr (neg_neg_of_pos (dotProduct_self_pos hg))

theorem Act.yields_ofExcept {α V β : Type} (e : Except (Fault α) β) :
    Yields (ofExcept e : Act σ α V β) fun b => e = .ok b := by
  intro t _
  cases e with
  | ok b => exact rfl
  | error f => trivial

theorem ConjugateGradient.descends (s : ConjugateGradient)
    (o : Oracle (Exact K) (Vector (Exact K) n) M) : s.strategy.Descends o Sensible := by
  intro x g hg hx
  have hsteepest := inner_neg_self hg hx
  have hrestart : ∀ reason, Yields (restart x.gradient reason :
      Act (State (Exact K) (Vector (Exact K) n)) (Exact K) (Vector (Exact K) n) _) fun v =>
        Space.inner x.gradient v < 0 :=
    fun _ => .bind .any fun _ _ => .bind .any fun _ _ => .pure hsteepest
  refine Ensures.mono (P := fun _ => True) ?_ (fun _ _ => trivial) fun _ _ h => h
  refine (Yields.bind .any fun st _ => ?_ : Yields _ fun v => Space.inner x.gradient v < 0)
  cases st.memory with
  | none => exact .pure hsteepest
  | some last =>
    refine .ite (fun _ => hrestart _) fun _ => .bind .any fun b _ => ?_
    refine .ite (fun _ => .bind .any fun d _ => ?_) fun _ => hrestart _
    refine .bind (Act.yields_ofExcept _) fun a ha => ?_
    obtain rfl := Except.ok.inj ((Space.product?_vector _ _).symm.trans ha)
    exact .ite (fun hneg => .pure hneg) fun _ => hrestart _

theorem QuasiNewton.descends (s : QuasiNewton (Exact K))
    (o : Oracle (Exact K) (Vector (Exact K) n) M) : s.strategy.Descends o Ringed := by
  intro x g hg hx
  refine ensures_current fun ring hring t ht => ?_
  obtain ⟨a, ha, -, hneg⟩ := hring.exists_linearMap
  rw [hx, History.applyTo_vector, ha]
  change Space.inner (lift g) (lift (a g)) < 0
  rw [Space.inner_vector, dot_lift]
  exact number_lt.mpr (hneg g hg)

/-- With numbers as parameters of the shifts, a Newton direction descends, at whatever Hessian. -/
theorem Newton.descends [SoundRoot K] (s : Newton (Exact K))
    (hbeta : Scalar.isFinite s.beta = true) (hgrowth : Scalar.isFinite s.growth = true)
    (o : Oracle (Exact K) (Vector (Exact K) n) (Matrix (Exact K) n)) :
    s.strategy.Descends o fun _ => True := by
  intro x g hg hx
  have hsteepest := inner_neg_self hg hx
  refine (Yields.bind .any fun m _ => .bind (Act.yields_ofExcept _) fun _ hfinite => ?_ :
    Yields (s.direction o x) fun v => Space.inner x.gradient v < 0)
  have hfinite : m.allFinite = true := by
    by_contra hno
    rw [show Curved.finite m = false from Bool.eq_false_iff.mpr hno] at hfinite
    cases hfinite
  obtain ⟨a, rfl⟩ := exists_liftMatrix hfinite
  refine .bind (Act.yields_ofExcept _) fun m hm => ?_
  have hsymmetric : Curved.symmetrize (liftMatrix a) =
      (.ok (liftMatrix (symmetricPart a)) : Except (Fault (Exact K)) _) :=
    congrArg Except.ok (symmetrize_lift a)
  obtain rfl := Except.ok.inj (hsymmetric.symm.trans hm)
  rcases hfactor : Curved.factor (liftMatrix (symmetricPart a)) s.beta s.growth s.attempts with
    f | ⟨l, tau⟩
  · cases f with
    | notPositiveDefinite attempts =>
      exact .bind .any fun _ _ => .bind .any fun _ _ => .pure hsteepest
    | _ => exact .throw _
  obtain ⟨t, f, rfl, rfl, hf⟩ := exists_triangular_of_shift hbeta hgrowth hfactor
  have hsolve : Yields (Act.ofExcept (Curved.solve (liftMatrix f) (-x.gradient)) :
      Act (State (Exact K)) (Exact K) (Vector (Exact K) n) _) fun v =>
        Space.inner x.gradient v < 0 := by
    obtain ⟨v, hsolution, hv⟩ := hf.exists_solveFactor (-g)
    rw [hx, neg_lift, show Curved.solve (liftMatrix f) (lift (-g)) = .ok (lift v) from hsolution]
    refine .pure ?_
    rw [Space.inner_vector, dot_lift]
    exact number_lt.mpr (Triangular.slope_neg hg hv)
  exact .bind .any fun _ _ => .ite (fun _ => .bind .any fun _ _ => hsolve) fun _ => hsolve

end Downhill
