import Downhill.Direction.ConjugateGradient
import Downhill.Proofs.ConjugateGradient.Conjugacy
import Downhill.Proofs.ConjugateGradient.Reliable

/-! The strategy of conjugate gradients under exact steps on a strictly convex quadratic objective.
The three rules for the share of the last direction agree there, no step is a restart, and the
directions are the conjugate ones, until the gradient is zero. -/
open Matrix

namespace Downhill
variable {σ α K M : Type} {n : ℕ}

namespace Quadratic
variable [Scalar α] (q : Quadratic α n)

def iterate (x : Vector α n) : Iterate α (Vector α n) := ⟨x, q.value x, q.gradient x⟩

/-- The length of the step from `x` that minimizes the objective along a direction. -/
def exactStep (x : Iterate α (Vector α n)) (direction : Vector α n) : α :=
  -dot x.gradient direction / dot direction (q.matrix.apply direction)

end Quadratic

namespace Strategy
variable [Scalar α] (s : Strategy σ α (Vector α n) M) (o : Oracle α (Vector α n) M)
  (q : Quadratic α n)

/-- An exact step along the direction of a strategy, which is told of it as by a run. -/
def stride (x : Iterate α (Vector α n)) :
    Act σ α (Vector α n) (Vector α n × Iterate α (Vector α n)) := do
  let direction ← s.compute o x
  let alpha := q.exactStep x direction
  let y := q.iterate (x.point + alpha * direction)
  s.update (y.point - x.point) (y.gradient - x.gradient) y.gradient alpha direction
  return (direction, y)

/-- Some exact steps: the directions in their order, and the iterate that is reached. -/
def walk (x : Iterate α (Vector α n)) :
    ℕ → Act σ α (Vector α n) (List (Vector α n) × Iterate α (Vector α n))
  | 0 => return ([], x)
  | k + 1 => do
    let (directions, y) ← walk x k
    let (direction, z) ← stride s o q y
    return (directions ++ [direction], z)

variable {s o q} in
/-- A walk whose every step is known, with an invariant that counts them. -/
theorem perform_walk {I : ℕ → σ → Prop} {stage : ℕ → Iterate α (Vector α n)}
    {direction : ℕ → Vector α n} {last : ℕ} {l : Ledger α (Vector α n)}
    (hstride : ∀ k < last, ∀ st, I k st → ∃ st',
      (s.stride o q (stage k)).perform st l = (.ok (direction k, stage (k + 1)), st', l) ∧
        I (k + 1) st') {st : σ} (h : I 0 st) {k : ℕ} (hk : k ≤ last) :
    ∃ st', (s.walk o q (stage 0) k).perform st l =
      (.ok ((List.range k).map direction, stage k), st', l) ∧ I k st' := by
  induction k with
  | zero => exact ⟨st, rfl, h⟩
  | succ k ih =>
    obtain ⟨st₁, hwalk, h₁⟩ := ih (Nat.le_of_succ_le hk)
    obtain ⟨st₂, hnext, h₂⟩ := hstride k hk st₁ h₁
    refine ⟨st₂, ?_, h₂⟩
    simp only [walk, Act.perform_bind, hwalk, hnext, Act.perform_pure]
    rw [List.range_succ, List.map_append, List.map_singleton]

end Strategy

variable [ExactField K]

namespace ConjugateGradient
open Exact ConvexQuadratic

variable {q : ConvexQuadratic K n} {x : Fin n → K} {k : ℕ} {rule : BetaRule}

/-- What the strategy remembers of step number `k - 1`. -/
def memoryAt (q : ConvexQuadratic K n) (x : Fin n → K) :
    ℕ → Option (Memory (Exact K) (Vector (Exact K) n))
  | 0 => none
  | k + 1 => some ⟨lift (q.direction x k), lift (q.residual x k), number (q.length x k)⟩

/-- The strategy after `k` steps without a restart. -/
structure Follows (q : ConvexQuadratic K n) (x : Fin n → K) (restarts k : ℕ)
    (st : State (Exact K) (Vector (Exact K) n)) : Prop where
  memory : st.memory = memoryAt q x k
  interval : st.interval = n
  sinceRestart : st.sinceRestart = k
  restarts : st.restarts = restarts

/-- The new gradient is orthogonal to the last one and to the last direction, so all rules come to
the same share. -/
theorem beta_eq_turn (rule : BetaRule) (hne : ∀ j ≤ k, q.residual x j ≠ 0) (a : Exact K) :
    beta rule ⟨lift (q.direction x k), lift (q.residual x k), a⟩ (lift (q.residual x (k + 1))) =
      .ok (number (q.turn x k)) := by
  have hlast := conjugate_of_ne_zero fun j hj => hne j hj.le
  have hnext := hlast.succ hne
  have hself := dotProduct_self_pos (hne k le_rfl)
  have hturn : 0 ≤ q.turn x k :=
    div_nonneg (dotProduct_self_nonneg _) hself.le
  have hchange : q.residual x (k + 1) ⬝ᵥ (q.residual x (k + 1) - q.residual x k) =
      q.residual x (k + 1) ⬝ᵥ q.residual x (k + 1) := by
    rw [dotProduct_sub, hnext.orthogonal k k.lt_succ_self, sub_zero]
  have hacross : q.direction x k ⬝ᵥ (q.residual x (k + 1) - q.residual x k) =
      q.residual x k ⬝ᵥ q.residual x k := by
    rw [dotProduct_sub, dotProduct_comm, hnext.descended k k.lt_succ_self, dotProduct_comm,
      hlast.slope k le_rfl, zero_sub, neg_neg]
  cases rule with
  | fletcherReeves => exact (beta_fletcherReeves rfl _).trans (if_neg (hne k le_rfl))
  | polakRibiere =>
    simp only [beta, Space.difference?_vector, Space.product?_vector, lift_sub, dot_lift, hchange,
      bind, Except.bind, quotient_number hself.ne', zero_eq, larger_number, pure, Except.pure]
    rw [← turn, max_eq_right hturn]
  | hestenesStiefel =>
    simp only [beta, Space.difference?_vector, Space.product?_vector, lift_sub, dot_lift, hchange,
      hacross, bind, Except.bind, zero_eq, number_beq, hself.ne', decide_false, Bool.false_eq_true,
      if_false, number_div, larger_number, pure, Except.pure, ne_eq, not_false_eq_true]
    rw [← turn, max_eq_right hturn]

theorem turn_pos (hne : ∀ j ≤ k + 1, q.residual x j ≠ 0) : 0 < q.turn x k :=
  div_pos (dotProduct_self_pos (hne (k + 1) le_rfl)) (dotProduct_self_pos (hne k k.le_succ))

variable {restarts : ℕ} {st : State (Exact K) (Vector (Exact K) n)}
  {l : Ledger (Exact K) (Vector (Exact K) n)}

/-- The direction is the conjugate one, and it is no restart. -/
theorem Follows.perform_direction (h : Follows q x restarts k st) (hk : k < n)
    (hne : ∀ j ≤ k, q.residual x j ≠ 0) :
    (direction ⟨rule, none⟩ (lift (q.residual x k))).perform st l =
      (.ok (lift (q.direction x k)), st, l) := by
  cases k with
  | zero =>
    have hmemory : st.memory = none := h.memory
    simp only [direction, Act.perform_bind, Act.perform_state, hmemory, Act.perform_pure, neg_lift,
      direction_zero]
  | succ k =>
    have hmemory : st.memory = some _ := h.memory
    have hperiod : ¬ st.interval ≤ st.sinceRestart := by
      rw [h.interval, h.sinceRestart]
      exact not_le.mpr hk
    have hbeta := beta_eq_turn rule (fun j hj => hne j (Nat.le_succ_of_le hj))
      (number (q.length x k))
    have hslope := (conjugate_of_ne_zero fun j hj => hne j hj.le).slope_neg le_rfl (hne _ le_rfl)
    rw [direction_succ] at hslope ⊢
    rw [perform_direction_of_beta hmemory hperiod rfl hbeta, if_pos (turn_pos hne), if_pos hslope]

/-- After the report of a step the strategy remembers that step. -/
theorem Follows.perform_record (h : Follows q x restarts k st) :
    ∃ st', (record (lift (q.residual x (k + 1)) - lift (q.residual x k))
        (lift (q.residual x (k + 1))) (number (q.length x k))
        (lift (q.direction x k))).perform st l = (.ok (), st', l) ∧
      Follows q x restarts (k + 1) st' := by
  refine ⟨{ st with
    memory := memoryAt q x (k + 1)
    slope := number (q.residual x k ⬝ᵥ q.direction x k)
    sinceRestart := st.sinceRestart + 1 }, ?_,
    ⟨rfl, h.interval, congrArg (· + 1) h.sinceRestart, h.restarts⟩⟩
  simp only [record, Act.perform_bind, Act.perform_ofExcept, Space.difference?_vector, lift_sub,
    sub_sub_cancel, Act.perform_modifyState, Space.product?_vector, dot_lift]
  rfl

/-- The iterate that the walk has reached after `k` steps. -/
def stage (q : ConvexQuadratic K n) (x : Fin n → K) (k : ℕ) :
    Iterate (Exact K) (Vector (Exact K) n) :=
  ⟨lift (q.point x k), q.objective.value (lift (q.point x k)), lift (q.residual x k)⟩

theorem exactStep_stage (hne : ∀ j ≤ k, q.residual x j ≠ 0) :
    q.objective.exactStep (stage q x k) (lift (q.direction x k)) = number (q.length x k) := by
  have hcurve := (conjugate_of_ne_zero fun j hj => hne j hj.le).curvature_pos le_rfl (hne k le_rfl)
  rw [Quadratic.exactStep, apply_objective, stage, dot_lift, dot_lift, number_neg,
    number_div hcurve.ne']
  rfl

theorem iterate_stage : q.objective.iterate
    ((stage q x k).point + number (q.length x k) * lift (q.direction x k)) = stage q x (k + 1) := by
  rw [stage, number_mul_lift, lift_add, ← point_succ, Quadratic.iterate, gradient_objective]
  rfl

variable (o : Oracle (Exact K) (Vector (Exact K) n) M)

theorem Follows.perform_stride (rule : BetaRule) (h : Follows q x restarts k st) (hk : k < n)
    (hne : ∀ j ≤ k, q.residual x j ≠ 0) :
    ∃ st', ((strategy ⟨rule, none⟩).stride o q.objective (stage q x k)).perform st l =
        (.ok (lift (q.direction x k), stage q x (k + 1)), st', l) ∧
      Follows q x restarts (k + 1) st' := by
  obtain ⟨st', hrecord, hnext⟩ := h.perform_record (l := l)
  refine ⟨st', ?_, hnext⟩
  have hcompute : (((strategy ⟨rule, none⟩).compute o (stage q x k)).perform st l) = _ :=
    h.perform_direction hk hne
  simp only [Strategy.stride, Act.perform_bind, hcompute, exactStep_stage hne, iterate_stage]
  simp only [strategy, stage] at hrecord ⊢
  rw [hrecord]
  rfl

theorem Follows.perform_walk (rule : BetaRule) (h : Follows q x restarts 0 st) (hk : k ≤ n)
    (hne : ∀ j < k, q.residual x j ≠ 0) :
    ∃ st', ((strategy ⟨rule, none⟩).walk o q.objective (stage q x 0) k).perform st l =
        (.ok ((List.range k).map fun i => lift (q.direction x i), stage q x k), st', l) ∧
      Follows q x restarts k st' := by
  refine Strategy.perform_walk (fun i hi st' h' => ?_) h le_rfl
  exact h'.perform_stride o rule (hi.trans_le hk) fun j hj => hne j (hj.trans_lt hi)

/-- Conjugate gradients with exact steps on a strictly convex quadratic objective, from any start.
There is a number of steps, at most the dimension, after which the gradient is zero for the first
time. Before that gradients are orthogonal to each other and directions are conjugate; and under
each of the rules, whatever the strategy was before the run, it takes these directions, so that no
step is a restart and nothing is remarked. -/
theorem walk_conjugate (q : ConvexQuadratic K n) (x : Fin n → K) :
    ∃ last ≤ n, q.residual x last = 0 ∧ (∀ k < last, q.residual x k ≠ 0) ∧
      (∀ i < last, ∀ j < last, i ≠ j → q.residual x i ⬝ᵥ q.residual x j = 0 ∧
        q.direction x i ⬝ᵥ q.matrix *ᵥ q.direction x j = 0) ∧
      ∀ (rule : BetaRule) (o : Oracle (Exact K) (Vector (Exact K) n) M)
        (before : State (Exact K) (Vector (Exact K) n)) (l : Ledger (Exact K) (Vector (Exact K) n)),
        let s : Strategy _ (Exact K) (Vector (Exact K) n) M := strategy ⟨rule, none⟩
        let start := q.objective.iterate (lift x)
        ∃ prepared, s.prepare o start before = .ok prepared ∧
          ∀ k ≤ last, ∃ st, (s.walk o q.objective start k).perform prepared l =
            (.ok ((List.range k).map fun i => lift (q.direction x i),
              ⟨lift (q.point x k), q.objective.value (lift (q.point x k)),
                lift (q.residual x k)⟩), st, l) ∧
            st.restarts = before.restarts := by
  obtain ⟨last, hlast, hzero, hne⟩ := q.exists_residual_eq_zero x
  refine ⟨last, hlast, hzero, hne, pairwise_conjugate hne, ?_⟩
  intro rule o before l s start
  refine ⟨_, rfl, fun k hk => ?_⟩
  have hstart : start = stage q x 0 := by
    simp only [start, Quadratic.iterate, gradient_objective]
    rfl
  have hbegun : Follows q x before.restarts 0 ⟨before.restarts, n, none, 0, 0⟩ :=
    ⟨rfl, rfl, rfl, rfl⟩
  obtain ⟨st, hwalk, hst⟩ := hbegun.perform_walk (l := l) o rule (hk.trans hlast)
    fun j hj => hne j (hj.trans_le hk)
  rw [hstart]
  exact ⟨st, hwalk, hst.restarts⟩

/-- The function `2x² + xy + 3/2 y² - x - 2y`, with its minimum at `(1/11, 7/11)`. -/
def ellipse : ConvexQuadratic ℚ 2 where
  matrix := !![4, 1; 1, 3]
  linear := ![1, 2]
  symm := by decide +kernel
  pos v hv := by
    have hform : v ⬝ᵥ !![4, 1; 1, 3] *ᵥ v = 3 * (v 0 * v 0) + 2 * (v 1 * v 1) +
        (v 0 + v 1) * (v 0 + v 1) := by
      simp [dotProduct, mulVec, Fin.sum_univ_two]
      ring
    have hself := dotProduct_self_pos hv
    simp only [dotProduct, Fin.sum_univ_two] at hself
    rw [hform]
    nlinarith [mul_self_nonneg (v 0), mul_self_nonneg (v 1), mul_self_nonneg (v 0 + v 1)]

/-- Two steps lead to the minimum of an ellipse, and all rules take them. -/
theorem walk_conjugate_ellipse :
    let x : Fin 2 → ℚ := ![2, 1]
    let start := ellipse.objective.iterate (lift x)
    ellipse.residual x 0 = ![8, 3] ∧ ellipse.residual x 1 = ![93 / 331, -248 / 331] ∧
      ellipse.residual x 2 = 0 ∧ ellipse.point x 2 = ![1 / 11, 7 / 11] ∧
      ∀ rule : BetaRule,
        let s : Strategy _ (Exact ℚ) (Vector (Exact ℚ) 2) (Matrix (Exact ℚ) 2) :=
          strategy ⟨rule, none⟩
        ∃ prepared, s.prepare .absent start (fresh ⟨rule, none⟩) = .ok prepared ∧
          ∃ st, (s.walk .absent ellipse.objective start 2).perform prepared {} =
            (.ok ([lift (ellipse.direction x 0), lift (ellipse.direction x 1)],
              ⟨lift ![1 / 11, 7 / 11], ellipse.objective.value (lift ![1 / 11, 7 / 11]), lift 0⟩),
              st, {}) ∧ st.restarts = 0 := by
  intro x start
  have h0 : ellipse.residual x 0 = ![8, 3] := by decide +kernel
  have h1 : ellipse.residual x 1 = ![93 / 331, -248 / 331] := by decide +kernel
  have h2 : ellipse.residual x 2 = 0 := by decide +kernel
  have hpoint : ellipse.point x 2 = ![1 / 11, 7 / 11] := by decide +kernel
  refine ⟨h0, h1, h2, hpoint, ?_⟩
  intro rule s
  obtain ⟨last, hle, hzero, -, -, hwalk⟩ := walk_conjugate ellipse x
  have hlast : last = 2 := by
    interval_cases last
    · rw [h0] at hzero
      exact absurd hzero (by decide)
    · rw [h1] at hzero
      exact absurd hzero (by decide +kernel)
    · rfl
  obtain ⟨prepared, hprepare, hsteps⟩ := hwalk rule .absent (fresh ⟨rule, none⟩) {}
  obtain ⟨st, hst, hrestarts⟩ := hsteps 2 hlast.ge
  refine ⟨prepared, hprepare, st, ?_, hrestarts⟩
  rw [hpoint, h2] at hst
  exact hst

end ConjugateGradient

end Downhill
