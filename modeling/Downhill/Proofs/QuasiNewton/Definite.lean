import Downhill.Direction.QuasiNewton.Strategy
import Downhill.Proofs.Ensures
import Downhill.Proofs.QuasiNewton.Dense

/-! The limited-memory inverse Hessian is symmetric and positive definite. Every update keeps both
properties, because the pairs in the ring have positive products; so the directions descend at every
gradient but zero, whatever the strategy was told before. -/
open Matrix

namespace Downhill
variable {K : Type} [ExactField K] {n m : ℕ}

open Exact

namespace InverseHessian

/-- The matrix is symmetric, and its quadratic form is positive away from zero. -/
structure Definite (h : SquareMatrix K n) : Prop where
  symm : h.IsSymm
  pos : ∀ v, v ≠ 0 → 0 < v ⬝ᵥ h *ᵥ v

variable {h : SquareMatrix K n} {s y : Fin n → K}

/-- The quadratic form after an update: the old one at a vector that is moved along `y`, and a
square. -/
theorem dotProduct_update_mulVec (h : SquareMatrix K n) (s y v : Fin n → K) :
    v ⬝ᵥ update h (s, y) *ᵥ v =
      let a := 1 / (s ⬝ᵥ y) * (s ⬝ᵥ v)
      (v - a • y) ⬝ᵥ h *ᵥ (v - a • y) + a * (s ⬝ᵥ v) := by
  rw [update_mulVec]
  simp only [dotProduct_add, dotProduct_smul, sub_dotProduct, smul_dotProduct, smul_eq_mul]
  rw [dotProduct_comm v s]
  ring

theorem isSymm_update (hh : h.IsSymm) (p : (Fin n → K) × (Fin n → K)) :
    (update h p).IsSymm := by
  simp only [Matrix.IsSymm, update, transpose_add, transpose_mul, transpose_sub, transpose_one,
    transpose_smul, transpose_vecMulVec, hh.eq, Matrix.mul_assoc]

namespace Definite

theorem nonneg (hd : Definite h) (v : Fin n → K) : 0 ≤ v ⬝ᵥ h *ᵥ v := by
  by_cases hv : v = 0
  · simp [hv]
  · exact (hd.pos v hv).le

theorem smul_one {c : K} (hc : 0 < c) : Definite (c • 1 : SquareMatrix K n) := by
  refine ⟨by rw [Matrix.IsSymm, transpose_smul, transpose_one], fun v hv => ?_⟩
  rw [smul_mulVec, one_mulVec, dotProduct_smul, smul_eq_mul]
  exact mul_pos hc (dotProduct_self_pos hv)

/-- Where `s` and `v` are orthogonal the vector stays in its place; elsewhere the square is
positive. -/
theorem update (hd : Definite h) (hsy : 0 < s ⬝ᵥ y) :
    Definite (InverseHessian.update h (s, y)) := by
  refine ⟨isSymm_update hd.symm (s, y), fun v hv => ?_⟩
  rw [dotProduct_update_mulVec]
  by_cases hsv : s ⬝ᵥ v = 0
  · simpa [hsv] using hd.pos v hv
  · have hold := hd.nonneg (v - (1 / (s ⬝ᵥ y) * (s ⬝ᵥ v)) • y)
    have hsquare : 0 < 1 / (s ⬝ᵥ y) * (s ⬝ᵥ v) * (s ⬝ᵥ v) := by
      rw [mul_assoc]
      exact mul_pos (one_div_pos.mpr hsy) (mul_self_pos.mpr hsv)
    exact add_pos_of_nonneg_of_pos hold hsquare

theorem foldl_update (hd : Definite h) {pairs : List ((Fin n → K) × (Fin n → K))}
    (hpairs : ∀ p ∈ pairs, 0 < p.1 ⬝ᵥ p.2) :
    Definite (pairs.foldl InverseHessian.update h) := by
  induction pairs generalizing h with
  | nil => exact hd
  | cons p pairs ih =>
    rw [List.forall_mem_cons] at hpairs
    exact ih (hd.update hpairs.1) hpairs.2

end Definite

theorem scaling_pos {pairs : List ((Fin n → K) × (Fin n → K))}
    (hpairs : ∀ p ∈ pairs, 0 < p.1 ⬝ᵥ p.2) : 0 < scaling pairs := by
  rw [scaling]
  cases hl : pairs.getLast? with
  | none => exact one_pos
  | some p =>
    have hsy := hpairs p (List.mem_of_getLast? hl)
    refine div_pos hsy (dotProduct_self_pos fun hzero => ?_)
    rw [hzero, dotProduct_zero] at hsy
    exact hsy.false

theorem definite_dense {pairs : List ((Fin n → K) × (Fin n → K))}
    (hpairs : ∀ p ∈ pairs, 0 < p.1 ⬝ᵥ p.2) : Definite (dense pairs) :=
  (Definite.smul_one (scaling_pos hpairs)).foldl_update hpairs

end InverseHessian

namespace History
open InverseHessian

variable {h : History (Exact K) m (Vector (Exact K) n)}

/-- What a sound ring does to a gradient is a linear map, symmetric and negative definite. -/
theorem Sound.exists_linearMap (hs : h.Sound) : ∃ a : (Fin n → K) →ₗ[K] (Fin n → K),
    (∀ g, h.apply (lift g) = lift (a g)) ∧ (∀ u v, u ⬝ᵥ a v = v ⬝ᵥ a u) ∧
      ∀ g, g ≠ 0 → g ⬝ᵥ a g < 0 := by
  obtain ⟨pairs, hpairs, hpos⟩ := hs.exists_pairs
  have hd := definite_dense hpos
  refine ⟨-(dense pairs).mulVecLin, apply_lift hpairs hpos, fun u v => ?_, fun g hg => ?_⟩
  · have hswap : u ⬝ᵥ dense pairs *ᵥ v = v ⬝ᵥ dense pairs *ᵥ u := by
      rw [dotProduct_mulVec, ← mulVec_transpose, hd.symm.eq, dotProduct_comm]
    simpa using hswap
  · simpa using hd.pos g hg

end History

namespace QuasiNewton
variable {s : QuasiNewton (Exact K)}
  {o : Oracle (Exact K) (Vector (Exact K) n) (Matrix (Exact K) n)}

/-- The states of the strategy after it was prepared for a run and then called in any way, any
number of times. -/
inductive Reachable (s : QuasiNewton (Exact K))
    (o : Oracle (Exact K) (Vector (Exact K) n) (Matrix (Exact K) n)) :
    State (Exact K) s.memory.toNat (Vector (Exact K) n) → Prop
  | prepare {start : Iterate (Exact K) (Vector (Exact K) n)}
      {before st : State (Exact K) s.memory.toNat (Vector (Exact K) n)}
      (h : s.strategy.prepare o start before = .ok st) : Reachable s o st
  | compute {st : State (Exact K) s.memory.toNat (Vector (Exact K) n)} (h : Reachable s o st)
      (x : Iterate (Exact K) (Vector (Exact K) n))
      (l : Ledger (Exact K) (Vector (Exact K) n)) :
      Reachable s o ((s.strategy.compute o x).perform st l).2.1
  | initialStep {st : State (Exact K) s.memory.toNat (Vector (Exact K) n)} (h : Reachable s o st)
      (gradient direction : Vector (Exact K) n) (l : Ledger (Exact K) (Vector (Exact K) n)) :
      Reachable s o (((s.strategy (M := Matrix (Exact K) n)).initialStep gradient
        direction).perform st l).2.1
  | update {st : State (Exact K) s.memory.toNat (Vector (Exact K) n)} (h : Reachable s o st)
      (a y gradient : Vector (Exact K) n) (alpha : Exact K) (direction : Vector (Exact K) n)
      (l : Ledger (Exact K) (Vector (Exact K) n)) :
      Reachable s o (((s.strategy (M := Matrix (Exact K) n)).update a y gradient alpha
        direction).perform st l).2.1
  | reset {st : State (Exact K) s.memory.toNat (Vector (Exact K) n)} (h : Reachable s o st)
      (l : Ledger (Exact K) (Vector (Exact K) n)) :
      Reachable s o (((s.strategy (M := Matrix (Exact K) n)).reset).perform st l).2.1

section Perform
variable {α V : Type} [Scalar α] [Space α V] {m : ℕ}

omit [Scalar α] [Space α V] in
theorem perform_current {st : State α m V} {h : History α m V} (hst : st.history = some h)
    (missing : Fault α) (l : Ledger α V) : (current missing).perform st l = (.ok h, st, l) := by
  obtain ⟨history, skipped⟩ := st
  obtain rfl : history = some h := hst
  rfl

theorem history_learn {st : State α m V} {h : History α m V} (hst : st.history = some h) (a y : V)
    (l : Ledger α V) : ((learn a y).perform st l).2.1.history = some (h.push a y).2 := by
  simp only [learn, Act.perform_bind, perform_current hst]
  rcases h.push a y with ⟨f | stored, h'⟩
  · rfl
  · cases stored <;> rfl

theorem begin_of_pos {s : QuasiNewton α} (hm : 0 < s.memory.toNat) {start : V}
    (hn : 0 < Space.size start) :
    s.begin start = .ok ⟨some (.empty (Space.size start) s.threshold hm), 0⟩ := by
  rw [begin, History.make_of_pos hm hn]
  rfl

end Perform

theorem exists_sound_of_begin (h0 : 0 ≤ s.threshold) {start : Vector (Exact K) n}
    {st : State (Exact K) s.memory.toNat (Vector (Exact K) n)} (h : s.begin start = .ok st) :
    ∃ ring, st.history = some ring ∧ ring.Sound := by
  obtain ⟨ring, hmake, hst⟩ := bind_eq_ok_iff.mp h
  obtain rfl := Except.ok.inj hst
  refine ⟨ring, rfl, ?_⟩
  unfold History.make at hmake
  split_ifs at hmake
  obtain rfl := Except.ok.inj hmake
  exact ⟨h0, nofun⟩

/-- A strategy that was prepared has a ring, and whatever it is told the ring stays sound. -/
theorem Reachable.exists_sound (h0 : 0 ≤ s.threshold)
    {st : State (Exact K) s.memory.toNat (Vector (Exact K) n)} (h : Reachable s o st) :
    ∃ ring, st.history = some ring ∧ ring.Sound := by
  induction h with
  | prepare h => exact exists_sound_of_begin h0 h
  | compute h x l ih =>
    obtain ⟨ring, hring, hsound⟩ := ih
    refine ⟨ring, ?_, hsound⟩
    simpa only [strategy, Act.perform_bind, perform_current hring, Act.perform_ofExcept]
  | initialStep h gradient direction l ih =>
    obtain ⟨ring, hring, hsound⟩ := ih
    refine ⟨ring, ?_, hsound⟩
    simp only [strategy, Act.perform_bind, perform_current hring]
    split_ifs
    · cases cautiousStep gradient <;> exact hring
    · exact hring
  | update h a y gradient alpha direction l ih =>
    obtain ⟨ring, hring, hsound⟩ := ih
    exact ⟨_, history_learn hring a y l, hsound.call (.push a y)⟩
  | @reset st h l ih =>
    obtain ⟨ring, hring, hsound⟩ := ih
    refine ⟨ring.clear, ?_, hsound.call .clear⟩
    simp only [strategy, Act.perform_bind, perform_current hring, Act.perform_modifyState]

/-- The direction at a gradient that is not zero descends. -/
theorem Reachable.exists_direction (h0 : 0 ≤ s.threshold)
    {st : State (Exact K) s.memory.toNat (Vector (Exact K) n)} (h : Reachable s o st)
    {x : Iterate (Exact K) (Vector (Exact K) n)} {g : Fin n → K} (hx : x.gradient = lift g)
    (hg : g ≠ 0) (l : Ledger (Exact K) (Vector (Exact K) n)) :
    ∃ v : Fin n → K, (s.strategy.compute o x).perform st l = (.ok (lift v), st, l) ∧
      g ⬝ᵥ v < 0 := by
  obtain ⟨ring, hring, hsound⟩ := h.exists_sound h0
  obtain ⟨a, happly, -, hneg⟩ := hsound.exists_linearMap
  refine ⟨a g, ?_, hneg g hg⟩
  have hto : ring.applyTo x.gradient = .ok (lift (a g)) := by
    rw [History.applyTo_vector, hx, happly]
  simp only [strategy, Act.perform_bind, perform_current hring, Act.perform_ofExcept, hto]

end QuasiNewton

namespace History

/-- The directions of a ring are a linear function of the gradient, which is symmetric and negative
definite, after any calls. So every direction of the limited-memory strategy at a gradient that is
not zero descends, whichever pairs were admitted, refused, overwritten or dropped before. -/
theorem apply_negative_definite (hm : 0 < m) (rows : ℕ) {threshold : Exact K} (h0 : 0 ≤ threshold)
    (cs : List (Call (Vector (Exact K) n))) :
    let h := (empty rows threshold hm : History (Exact K) m (Vector (Exact K) n)).calls cs
    (∃ a : (Fin n → K) →ₗ[K] (Fin n → K), ∀ g, h.apply (lift g) = lift (a g)) ∧
    (∀ u v : Fin n → K, dot (lift u) (h.apply (lift v)) = dot (lift v) (h.apply (lift u))) ∧
    (∀ g : Fin n → K, g ≠ 0 → dot (lift g) (h.apply (lift g)) < 0) ∧
    ∀ (s : QuasiNewton (Exact K)) (o : Oracle (Exact K) (Vector (Exact K) n) (Matrix (Exact K) n))
      (st : QuasiNewton.State (Exact K) s.memory.toNat (Vector (Exact K) n))
      (x : Iterate (Exact K) (Vector (Exact K) n)) (g : Fin n → K)
      (l : Ledger (Exact K) (Vector (Exact K) n)),
      0 ≤ s.threshold → s.Reachable o st → x.gradient = lift g → g ≠ 0 →
      ∃ direction, (s.strategy.compute o x).perform st l = (.ok direction, st, l) ∧
        dot x.gradient direction < 0 := by
  intro h
  have hempty : (empty rows threshold hm : History (Exact K) m (Vector (Exact K) n)).Sound :=
    ⟨h0, nofun⟩
  obtain ⟨a, happly, hsymm, hneg⟩ := (hempty.calls cs).1.exists_linearMap
  refine ⟨⟨a, happly⟩, fun u v => ?_, fun g hg => ?_, fun s o st x g l hs hst hx hg => ?_⟩
  · rw [happly, happly, dot_lift, dot_lift, hsymm]
  · rw [happly, dot_lift]
    exact hneg g hg
  · obtain ⟨v, hrun, hdescends⟩ := hst.exists_direction hs hx hg l
    refine ⟨lift v, hrun, ?_⟩
    rw [hx, dot_lift]
    exact hdescends

/-- A ring of two pairs that has overwritten its first one, and a strategy that was told of a step
with a positive product and then of one with a negative product. -/
theorem apply_negative_definite_overwritten :
    let h := (empty 2 0 two_pos : History (Exact ℚ) 2 (Vector (Exact ℚ) 2)).calls
      [.push #v[1, 0] #v[2, 1], .push #v[0, 1] #v[1, 2], .push #v[1, 0] #v[-1, 0],
        .push #v[1, 1] #v[3, 3]]
    let strategy : Strategy _ (Exact ℚ) (Vector (Exact ℚ) 2) (Matrix (Exact ℚ) 2) :=
      QuasiNewton.strategy ⟨2, 0⟩
    let tell := fun y st => ((strategy.update #v[1, 0] y #v[0, 0] 1 #v[1, 0]).perform st {}).2.1
    let st := tell #v[-1, 0] (tell #v[2, 1] ⟨some (empty 2 0 two_pos), 0⟩)
    dot (lift ![1, -1]) (h.apply (lift ![1, -1])) < 0 ∧ st.skipped = 1 ∧
      ∃ direction, (strategy.compute .absent ⟨#v[1, 0], 0, lift ![1, 2]⟩).perform st {} =
        (.ok direction, st, {}) ∧ dot (lift ![1, 2]) direction < 0 := by
  intro h strategy tell st
  have hthreshold : (0 : Exact ℚ) ≤ 0 := le_refl (0 : ℚ)
  obtain ⟨-, -, hneg, hstrategy⟩ := apply_negative_definite two_pos 2 hthreshold
    [.push #v[1, 0] #v[2, 1], .push #v[0, 1] #v[1, 2], .push #v[1, 0] #v[-1, 0],
      .push #v[1, 1] #v[3, 3]]
  have hprepared : QuasiNewton.Reachable (⟨2, 0⟩ : QuasiNewton (Exact ℚ)) .absent
      ⟨some (empty 2 0 two_pos), 0⟩ :=
    .prepare (show strategy.prepare .absent ⟨#v[0, 0], 0, #v[0, 0]⟩ QuasiNewton.fresh = _ from rfl)
  have hst : QuasiNewton.Reachable ⟨2, 0⟩ .absent st :=
    (hprepared.update #v[1, 0] #v[2, 1] #v[0, 0] 1 #v[1, 0] {}).update #v[1, 0] #v[-1, 0] #v[0, 0] 1
      #v[1, 0] {}
  refine ⟨hneg ![1, -1] (by decide), by decide +kernel, ?_⟩
  exact hstrategy ⟨2, 0⟩ .absent st ⟨#v[1, 0], 0, lift ![1, 2]⟩ ![1, 2] {} hthreshold hst rfl
    (by decide)

end History

end Downhill
