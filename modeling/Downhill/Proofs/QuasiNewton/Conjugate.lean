import Downhill.Proofs.ConjugateGradient.Walk
import Downhill.Proofs.QuasiNewton.Definite
import Downhill.Proofs.QuasiNewton.Queue

/-! Limited-memory directions under exact steps on a strictly convex quadratic objective. The
gradient at hand is orthogonal to all the pairs of earlier steps but to the gradient change of the
last one, so only the newest pair is felt by the two loops: whatever the memory holds beside it, the
direction is a multiple of the conjugate one, and the exact step along it is the same. -/
open Matrix

namespace Downhill
variable {K M : Type} [ExactField K] {n : ℕ}

open Exact

namespace InverseHessian
variable {older : List ((Fin n → K) × (Fin n → K))} {s y g : Fin n → K}

/-- Pairs that are orthogonal to the gradient are not felt. -/
theorem foldl_update_mulVec (gamma : K) (h : ∀ p ∈ older, p.1 ⬝ᵥ g = 0 ∧ p.2 ⬝ᵥ g = 0) :
    older.foldl update (gamma • 1) *ᵥ g = gamma • g := by
  induction older using List.reverseRecOn with
  | nil => rw [List.foldl_nil, smul_mulVec, one_mulVec]
  | append_singleton older p ih =>
    obtain ⟨hs, hy⟩ := h p (List.mem_append_right _ (List.mem_singleton_self p))
    rw [List.foldl_append, List.foldl_cons, List.foldl_nil, update_mulVec]
    simp only [hs, mul_zero, zero_smul, sub_zero]
    rw [ih fun p hp => h p (List.mem_append_left _ hp), dotProduct_smul, hy]
    simp

theorem scaling_append : scaling (older ++ [(s, y)]) = (s ⬝ᵥ y) / (y ⬝ᵥ y) := by
  rw [scaling, List.getLast?_concat]

/-- Of the newest pair the step is orthogonal to the gradient. -/
theorem dense_mulVec_append (h : ∀ p ∈ older, p.1 ⬝ᵥ g = 0 ∧ p.2 ⬝ᵥ g = 0) (hs : s ⬝ᵥ g = 0) :
    dense (older ++ [(s, y)]) *ᵥ g =
      scaling (older ++ [(s, y)]) • (g - (y ⬝ᵥ g / (s ⬝ᵥ y)) • s) := by
  rw [dense, List.foldl_append, List.foldl_cons, List.foldl_nil, update_mulVec]
  simp only [hs, mul_zero, zero_smul, sub_zero, zero_sub]
  rw [foldl_update_mulVec _ h, dotProduct_smul, smul_eq_mul, smul_sub, smul_smul, neg_smul,
    ← sub_eq_add_neg]
  congr 2
  ring

end InverseHessian

namespace ConvexQuadratic
open InverseHessian
variable (q : ConvexQuadratic K n) (x : Fin n → K)

/-- The pair of step number `k`. -/
def change (k : ℕ) : (Fin n → K) × (Fin n → K) :=
  (q.length x k • q.direction x k, q.residual x (k + 1) - q.residual x k)

/-- The pairs of the first `k` steps. -/
def changes (k : ℕ) : List ((Fin n → K) × (Fin n → K)) := (List.range k).map (q.change x)

theorem changes_zero : q.changes x 0 = [] := rfl

theorem changes_succ (k : ℕ) : q.changes x (k + 1) = q.changes x k ++ [q.change x k] := by
  rw [changes, List.range_succ, List.map_append]
  rfl

variable {q x} {k m : ℕ} (hne : ∀ j < k, q.residual x j ≠ 0)
include hne

/-- Nothing but the last gradient change is felt by the gradient. -/
theorem change_orthogonal {i : ℕ} (hi : i < k) : (q.change x i).1 ⬝ᵥ q.residual x k = 0 ∧
    (i + 1 < k → (q.change x i).2 ⬝ᵥ q.residual x k = 0) := by
  have h := conjugate_of_ne_zero hne
  refine ⟨?_, fun hnext => ?_⟩
  · rw [change, smul_dotProduct, dotProduct_comm, h.descended i hi, smul_zero]
  · rw [change, sub_dotProduct, dotProduct_comm, h.orthogonal (i + 1) hnext, dotProduct_comm,
      h.orthogonal i hi, sub_zero]

/-- The product of a pair is the length of the step times the square of the gradient before. -/
theorem change_product {i : ℕ} (hi : i < k) : (q.change x i).1 ⬝ᵥ (q.change x i).2 =
    q.length x i * (q.residual x i ⬝ᵥ q.residual x i) := by
  have h := conjugate_of_ne_zero (q := q) (x := x) (k := i + 1) fun j hj => hne j (by omega)
  rw [change, smul_dotProduct, dotProduct_sub, dotProduct_comm, h.descended i i.lt_succ_self,
    dotProduct_comm, h.slope i i.le_succ, zero_sub, neg_neg, smul_eq_mul]

theorem change_product_pos {i : ℕ} (hi : i < k) : 0 < (q.change x i).1 ⬝ᵥ (q.change x i).2 := by
  rw [change_product hne hi]
  have h := conjugate_of_ne_zero (q := q) (x := x) (k := i) fun j hj => hne j (hj.trans hi)
  exact mul_pos (h.length_pos le_rfl (hne i hi)) (dotProduct_self_pos (hne i hi))

/-- What the newest pair takes from the gradient is the turn of the conjugate direction. -/
theorem change_turn {i : ℕ} (hi : i < k) :
    ((q.change x i).2 ⬝ᵥ q.residual x (i + 1) / ((q.change x i).1 ⬝ᵥ (q.change x i).2)) •
      (q.change x i).1 = q.turn x i • q.direction x i := by
  have h := conjugate_of_ne_zero (q := q) (x := x) (k := i + 1) fun j hj => hne j (by omega)
  have hlength := (h.length_pos i.le_succ (hne i hi)).ne'
  have hself := (dotProduct_self_pos (hne i hi)).ne'
  rw [change_product hne hi, change, sub_dotProduct, dotProduct_comm (q.residual x i),
    h.orthogonal i i.lt_succ_self, sub_zero, smul_smul, turn]
  congr 1
  field_simp

theorem scaling_changes_pos : 0 < scaling (q.changes x k) := by
  cases k with
  | zero => exact one_pos
  | succ k =>
    have hproduct := change_product_pos hne k.lt_succ_self
    have hself : 0 < (q.change x k).2 ⬝ᵥ (q.change x k).2 := by
      apply dotProduct_self_pos
      intro hzero
      rw [hzero, dotProduct_zero] at hproduct
      exact hproduct.false
    rw [changes_succ, scaling_append]
    exact div_pos hproduct hself

/-- However many of the newest pairs are kept, at least one, the direction is a multiple of the
conjugate one. -/
theorem dense_changes_mulVec (hm : 0 < m) : dense ((q.changes x k).rtake m) *ᵥ q.residual x k =
    -(scaling (q.changes x k) • q.direction x k) := by
  cases k with
  | zero =>
    have hnone : dense ((q.changes x 0).rtake m) = (1 : K) • (1 : SquareMatrix K n) := by
      rw [changes_zero, List.rtake_nil]
      rfl
    have hone : scaling (q.changes x 0) = 1 := rfl
    rw [hnone, hone, one_smul, one_mulVec, one_smul, direction_zero, neg_neg]
  | succ k =>
    obtain ⟨m, rfl⟩ := Nat.exists_eq_succ_of_ne_zero hm.ne'
    have holder : ∀ p ∈ (q.changes x k).rtake m,
        p.1 ⬝ᵥ q.residual x (k + 1) = 0 ∧ p.2 ⬝ᵥ q.residual x (k + 1) = 0 := by
      intro p hp
      obtain ⟨i, hi, rfl⟩ := List.mem_map.mp (List.mem_of_mem_drop hp)
      have hik := List.mem_range.mp hi
      obtain ⟨hs, hy⟩ := change_orthogonal hne (Nat.lt_succ_of_lt hik)
      exact ⟨hs, hy (Nat.succ_lt_succ hik)⟩
    have hs := (change_orthogonal hne k.lt_succ_self).1
    rw [changes_succ, List.rtake_concat_succ, dense_mulVec_append holder hs,
      change_turn hne k.lt_succ_self, scaling_append, scaling_append, direction_succ, ← smul_neg]
    congr 1
    abel

end ConvexQuadratic

namespace QuasiNewton
open ConvexQuadratic
open ConjugateGradient (stage)
open InverseHessian (scaling)

variable {m : ℤ} {q : ConvexQuadratic K n} {x : Fin n → K} {k : ℕ}

/-- The strategy after `k` steps: the ring holds the newest of their pairs. -/
def Holds (q : ConvexQuadratic K n) (x : Fin n → K) (k : ℕ)
    (st : State (Exact K) m.toNat (Vector (Exact K) n)) : Prop :=
  ∃ ring, st.history = some ring ∧ ring.threshold = 0 ∧
    ring.pairs = ((q.changes x k).rtake m.toNat).map .ofField

variable {st : State (Exact K) m.toNat (Vector (Exact K) n)}
  {l : Ledger (Exact K) (Vector (Exact K) n)} (o : Oracle (Exact K) (Vector (Exact K) n) M)

/-- The direction is a multiple of the conjugate one. -/
theorem Holds.perform_compute (h : Holds q x k st) (hm : 1 ≤ m)
    (hne : ∀ j < k, q.residual x j ≠ 0) :
    ((strategy ⟨m, 0⟩).compute o (stage q x k)).perform st l =
      (.ok (lift (scaling (q.changes x k) • q.direction x k)), st, l) := by
  obtain ⟨ring, hring, -, hpairs⟩ := h
  have hpos : ∀ p ∈ (q.changes x k).rtake m.toNat, 0 < p.1 ⬝ᵥ p.2 := by
    intro p hp
    obtain ⟨i, hi, rfl⟩ := List.mem_map.mp (List.mem_of_mem_drop hp)
    exact change_product_pos hne (List.mem_range.mp hi)
  have happly := History.apply_lift hpairs hpos (q.residual x k)
  rw [dense_changes_mulVec hne (by omega), neg_neg] at happly
  simp only [strategy, Act.perform_bind, perform_current hring, Act.perform_ofExcept,
    History.applyTo_vector]
  rw [← happly]
  rfl

/-- The pair of the next step is stored. -/
theorem Holds.perform_learn (h : Holds q x k st) (hne : ∀ j ≤ k, q.residual x j ≠ 0) :
    ∃ st', (learn (lift (q.change x k).1) (lift (q.change x k).2)).perform st l = (.ok (), st', l) ∧
      Holds q x (k + 1) st' := by
  obtain ⟨ring, hring, hthreshold, hpairs⟩ := h
  have hproduct := change_product_pos (k := k + 1) (fun j hj => hne j (Nat.le_of_lt_succ hj))
    k.lt_succ_self
  have hadmits : ring.admits (number ((q.change x k).1 ⬝ᵥ (q.change x k).2)) = true := by
    simp [History.admits, hthreshold, hproduct]
  have hpush : ring.push (lift (q.change x k).1) (lift (q.change x k).2) =
      (.ok true, ring.put (.ofField (q.change x k))) := by
    rw [History.push_eq (by simp [hproduct.ne']), dot_lift, if_pos hadmits, one_eq,
      number_div hproduct.ne']
    rfl
  refine ⟨{ st with history := some (ring.put (.ofField (q.change x k))) }, ?_, _, rfl, ?_, ?_⟩
  · simp only [learn, Act.perform_bind, perform_current hring, hpush]
    rfl
  · rw [History.threshold_put, hthreshold]
  · rw [History.pairs_put, hpairs, changes_succ, History.map_rtake, History.map_rtake,
      History.rtake_rtake_append_singleton, List.map_append, List.map_singleton]

/-- The exact step does not feel the length of the direction. -/
theorem exactStep_stage_smul (hne : ∀ j ≤ k, q.residual x j ≠ 0) {t : K} (ht : t ≠ 0) :
    q.objective.exactStep (stage q x k) (lift (t • q.direction x k)) =
      number (q.length x k / t) := by
  have hcurve := (conjugate_of_ne_zero fun j hj => hne j hj.le).curvature_pos le_rfl (hne k le_rfl)
  have hcurve' : t • q.direction x k ⬝ᵥ q.matrix *ᵥ t • q.direction x k ≠ 0 := by
    rw [mulVec_smul, smul_dotProduct, dotProduct_smul, smul_eq_mul, smul_eq_mul]
    exact mul_ne_zero ht (mul_ne_zero ht hcurve.ne')
  rw [Quadratic.exactStep, apply_objective, stage, dot_lift, dot_lift, number_neg,
    number_div hcurve']
  have hlength : q.length x k = -(q.residual x k ⬝ᵥ q.direction x k) /
    (q.direction x k ⬝ᵥ q.matrix *ᵥ q.direction x k) := rfl
  rw [hlength, mulVec_smul, smul_dotProduct, dotProduct_smul, dotProduct_smul]
  simp only [smul_eq_mul]
  congr 1
  field_simp

theorem Holds.perform_stride (h : Holds q x k st) (hm : 1 ≤ m)
    (hne : ∀ j ≤ k, q.residual x j ≠ 0) :
    ∃ st', ((strategy ⟨m, 0⟩).stride o q.objective (stage q x k)).perform st l =
        (.ok (lift (scaling (q.changes x k) • q.direction x k), stage q x (k + 1)), st', l) ∧
      Holds q x (k + 1) st' := by
  obtain ⟨st', hlearn, hnext⟩ := h.perform_learn (l := l) hne
  refine ⟨st', ?_, hnext⟩
  have hcompute := h.perform_compute (l := l) o hm fun j hj => hne j hj.le
  have hscale := (scaling_changes_pos (q := q) (x := x) (k := k) fun j hj => hne j hj.le).ne'
  have hmove : (stage q x k).point + number (q.length x k / scaling (q.changes x k)) *
      lift (scaling (q.changes x k) • q.direction x k) = lift (q.point x (k + 1)) := by
    rw [stage, number_mul_lift, lift_add, smul_smul, div_mul_cancel₀ _ hscale, ← point_succ]
  have hstep : (stage q x (k + 1)).point - (stage q x k).point = lift (q.change x k).1 := by
    rw [stage, stage, lift_sub, point_succ, add_sub_cancel_left]
    rfl
  have hchange : (stage q x (k + 1)).gradient - (stage q x k).gradient =
      lift (q.change x k).2 := by
    rw [stage, stage, lift_sub]
    rfl
  have hupdate : ∀ gradient alpha direction, ((strategy ⟨m, 0⟩ : Strategy _ _ _ M).update
      (lift (q.change x k).1) (lift (q.change x k).2) gradient alpha direction).perform st l =
        (.ok (), st', l) := fun _ _ _ => hlearn
  have hiterate : q.objective.iterate (lift (q.point x (k + 1))) = stage q x (k + 1) := by
    rw [Quadratic.iterate, gradient_objective]
    rfl
  simp only [Strategy.stride, Act.perform_bind, hcompute, exactStep_stage_smul hne hscale, hmove,
    hiterate, hstep, hchange, hupdate, Act.perform_pure]

/-- The limited-memory strategy and conjugate gradients, with exact steps on a strictly convex
quadratic objective, from any start, whatever the two strategies were before the run, with any
memory of at least one pair and threshold zero. Up to the first gradient that is zero, which comes
after at most as many steps as there are dimensions, both reach the same iterates, and each
direction is a positive multiple of the conjugate one, the same for every memory. In dimension zero,
where there is no step to make, the limited-memory strategy does not begin. -/
theorem walk_eq_conjugate (q : ConvexQuadratic K n) (x : Fin n → K) :
    ∃ last ≤ n, q.residual x last = 0 ∧ (∀ k < last, q.residual x k ≠ 0) ∧
      ∃ scale : ℕ → K, (∀ i < last, 0 < scale i) ∧
      ∀ (m : ℤ) (rule : BetaRule) (o : Oracle (Exact K) (Vector (Exact K) n) M)
        (before : State (Exact K) m.toNat (Vector (Exact K) n))
        (before' : ConjugateGradient.State (Exact K) (Vector (Exact K) n))
        (l : Ledger (Exact K) (Vector (Exact K) n)), 1 ≤ m →
        let limited : Strategy _ (Exact K) (Vector (Exact K) n) M := strategy ⟨m, 0⟩
        let conjugate : Strategy _ (Exact K) (Vector (Exact K) n) M :=
          ConjugateGradient.strategy ⟨rule, none⟩
        let start := q.objective.iterate (lift x)
        n = 0 ∧ limited.prepare o start before = .error (.setting .memoryDimension) ∨
        ∃ prepared prepared', limited.prepare o start before = .ok prepared ∧
          conjugate.prepare o start before' = .ok prepared' ∧
          ∀ k ≤ last,
            let reached : Iterate (Exact K) (Vector (Exact K) n) :=
              ⟨lift (q.point x k), q.objective.value (lift (q.point x k)), lift (q.residual x k)⟩
            ∃ st st',
              (limited.walk o q.objective start k).perform prepared l =
                (.ok ((List.range k).map fun i => lift (scale i • q.direction x i), reached),
                  st, l) ∧
              (conjugate.walk o q.objective start k).perform prepared' l =
                (.ok ((List.range k).map fun i => lift (q.direction x i), reached), st', l) := by
  obtain ⟨last, hlast, hzero, hne⟩ := q.exists_residual_eq_zero x
  refine ⟨last, hlast, hzero, hne, fun i => scaling (q.changes x i),
    fun i hi => scaling_changes_pos fun j hj => hne j (hj.trans hi), ?_⟩
  intro m rule o before before' l hm limited conjugate start
  obtain rfl | hn := n.eq_zero_or_pos
  · have hmake : (History.make m (Space.size start.point) 0 : Except (Fault (Exact K))
        (History (Exact K) m.toNat (Vector (Exact K) 0))) = .error (.setting .memoryDimension) :=
      (dif_pos hm).trans (if_neg (show ¬ (1 : ℤ) ≤ 0 by decide))
    exact .inl ⟨rfl, congrArg (· >>= _) hmake⟩
  have hroom : 0 < m.toNat := by omega
  have hstart : start = stage q x 0 := by
    simp only [start, Quadratic.iterate, gradient_objective]
    rfl
  have hbegun : Holds q x 0 (⟨some (.empty n 0 hroom), 0⟩ : State (Exact K) m.toNat _) := by
    refine ⟨_, rfl, rfl, ?_⟩
    rw [changes_zero, List.rtake_nil]
    rfl
  have hfollows : ConjugateGradient.Follows q x before'.restarts 0
      ⟨before'.restarts, n, none, 0, 0⟩ := ⟨rfl, rfl, rfl, rfl⟩
  refine .inr ⟨_, _, begin_of_pos (s := ⟨m, 0⟩) hroom hn, rfl, fun k hk => ?_⟩
  obtain ⟨st, hwalk, -⟩ := Strategy.perform_walk (l := l)
    (fun i (hi : i < last) st h => h.perform_stride o hm fun j hj => hne j (hj.trans_lt hi))
    hbegun hk
  obtain ⟨st', hwalk', -⟩ := hfollows.perform_walk (l := l) o rule (hk.trans hlast)
    fun j hj => hne j (hj.trans_le hk)
  rw [hstart]
  exact ⟨st, st', hwalk, hwalk'⟩

/-- With room for one pair two steps lead to the minimum of an ellipse, the second one along a
multiple of the direction of conjugate gradients. -/
theorem walk_eq_conjugate_ellipse :
    let x : Fin 2 → ℚ := ![2, 1]
    let start := ConjugateGradient.ellipse.objective.iterate (lift x)
    let limited : Strategy _ (Exact ℚ) (Vector (Exact ℚ) 2) (Matrix (Exact ℚ) 2) := strategy ⟨1, 0⟩
    ∃ prepared, limited.prepare .absent start fresh = .ok prepared ∧ ∃ a b : ℚ, 0 < a ∧ 0 < b ∧
      ∃ reached st,
        (limited.walk .absent ConjugateGradient.ellipse.objective start 2).perform prepared {} =
          (.ok ([lift (a • ![-8, -3]), lift (b • ![-38471 / 109561, 79205 / 109561])], reached),
            st, {}) ∧ reached.gradient = lift 0 := by
  intro x start limited
  have h0 : ConjugateGradient.ellipse.direction x 0 = ![-8, -3] := by decide +kernel
  have h1 : ConjugateGradient.ellipse.direction x 1 = ![-38471 / 109561, 79205 / 109561] := by
    decide +kernel
  have h2 : ConjugateGradient.ellipse.residual x 2 = 0 := by decide +kernel
  obtain ⟨last, hle, hzero, -, scale, hscale, hwalk⟩ :=
    walk_eq_conjugate (M := Matrix (Exact ℚ) 2) ConjugateGradient.ellipse x
  have hlast : last = 2 := by
    interval_cases last
    · exact absurd hzero (by decide +kernel)
    · exact absurd hzero (by decide +kernel)
    · rfl
  obtain ⟨hn, -⟩ | ⟨prepared, prepared', hprepare, -, hsteps⟩ :=
    hwalk 1 .polakRibiere .absent fresh (ConjugateGradient.fresh ⟨.polakRibiere, none⟩) {} le_rfl
  · cases hn
  obtain ⟨st, st', hlimited, -⟩ := hsteps 2 hlast.ge
  rw [← h0, ← h1]
  exact ⟨prepared, hprepare, scale 0, scale 1, hscale 0 (by omega), hscale 1 (by omega), _, st,
    hlimited, congrArg lift h2⟩

end QuasiNewton

end Downhill
