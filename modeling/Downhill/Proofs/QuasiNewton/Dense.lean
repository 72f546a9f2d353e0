import Downhill.Proofs.Exact.Matrix
import Downhill.Proofs.QuasiNewton.Ring

/-! The two-loop recursion is the dense limited-memory update. The pairs in a ring that was filled
by any calls are pairs of the field with a positive product; from the newest to the oldest of them
the recursion unfolds the product of matrices that the dense update builds from the oldest on. -/
open Matrix

namespace Downhill
variable {K : Type} [ExactField K] {n m : ℕ}

open Exact

/-- The step and the change of the gradient. -/
def CurvaturePair.changes {α V : Type} (p : CurvaturePair α V) : V × V := (p.s, p.y)

/-- A pair of the field as it is stored. -/
def CurvaturePair.ofField (p : (Fin n → K) × (Fin n → K)) :
    CurvaturePair (Exact K) (Vector (Exact K) n) :=
  ⟨lift p.1, lift p.2, number (1 / (p.1 ⬝ᵥ p.2))⟩

namespace InverseHessian

/-- The update by one pair `(s, y)`: `(I - ρ s yᵀ) H (I - ρ y sᵀ) + ρ s sᵀ` with `ρ = 1 / s·y`. -/
def update (h : SquareMatrix K n) (p : (Fin n → K) × (Fin n → K)) : SquareMatrix K n :=
  let rho := 1 / (p.1 ⬝ᵥ p.2)
  (1 - rho • vecMulVec p.1 p.2) * h * (1 - rho • vecMulVec p.2 p.1) + rho • vecMulVec p.1 p.1

/-- The scaling `s·y / y·y` of the newest pair, one without pairs. -/
def scaling (pairs : List ((Fin n → K) × (Fin n → K))) : K :=
  match pairs.getLast? with
  | none => 1
  | some p => (p.1 ⬝ᵥ p.2) / (p.2 ⬝ᵥ p.2)

/-- The inverse Hessian of pairs, oldest first: a multiple of the identity, updated by each pair. -/
def dense (pairs : List ((Fin n → K) × (Fin n → K))) : SquareMatrix K n :=
  pairs.foldl update (scaling pairs • 1)

theorem smul_vecMulVec_mulVec (c : K) (u v w : Fin n → K) :
    (c • vecMulVec u v) *ᵥ w = (c * (v ⬝ᵥ w)) • u := by
  rw [smul_mulVec, vecMulVec_mulVec, op_smul_eq_smul, smul_smul]

theorem update_mulVec (h : SquareMatrix K n) (s y q : Fin n → K) :
    update h (s, y) *ᵥ q =
      let rho := 1 / (s ⬝ᵥ y)
      let a := rho * (s ⬝ᵥ q)
      let r := h *ᵥ (q - a • y)
      r + (a - rho * (y ⬝ᵥ r)) • s := by
  simp only [update, add_mulVec, ← mulVec_mulVec, sub_mulVec, one_mulVec, smul_vecMulVec_mulVec]
  rw [sub_smul]
  abel

end InverseHessian

namespace History
open InverseHessian

/-- One loop step of the recursion is one update of the matrix. -/
theorem twoLoop_eq_mulVec (gamma : K) (pairs : List ((Fin n → K) × (Fin n → K)))
    (g : Fin n → K) :
    twoLoop (number gamma) (pairs.map .ofField).reverse (lift g) =
      lift (pairs.foldl update (gamma • 1) *ᵥ g) := by
  induction pairs using List.reverseRecOn generalizing g with
  | nil => simp [twoLoop, smul_mulVec]
  | append_singleton pairs p ih =>
    obtain ⟨s, y⟩ := p
    rw [List.map_append, List.reverse_append, List.map_singleton, List.reverse_singleton,
      List.singleton_append, List.foldl_append, List.foldl_cons, List.foldl_nil, update_mulVec]
    simp only [twoLoop, CurvaturePair.ofField, Space.inner_vector, dot_lift, number_mul,
      number_mul_lift, lift_sub, ih, number_sub, lift_add]

/-- The threshold is not negative, and every pair in the ring is one of the field with a positive
product. -/
structure Sound (h : History (Exact K) m (Vector (Exact K) n)) : Prop where
  threshold_nonneg : 0 ≤ h.threshold
  pairs : ∀ q ∈ h.pairs, ∃ p : (Fin n → K) × (Fin n → K), 0 < p.1 ⬝ᵥ p.2 ∧ q = .ofField p

variable {h : History (Exact K) m (Vector (Exact K) n)} {s y : Vector (Exact K) n}

theorem exists_of_admits (h0 : 0 ≤ h.threshold) (ha : h.admits (dot s y) = true) :
    ∃ x z, s = lift x ∧ y = lift z ∧ 0 < x ⬝ᵥ z := by
  simp only [admits, Bool.and_eq_true, decide_eq_true_eq] at ha
  obtain ⟨t, ht⟩ := isFinite_iff.mp ha.1
  obtain ⟨x, z, hs, hy, rfl⟩ := exists_of_dot_eq ht
  refine ⟨x, z, hs, hy, ?_⟩
  have hpos := lt_of_le_of_lt h0 ha.2
  rwa [ht, zero_eq, number_lt] at hpos

/-- The product of an admitted pair is inverted. -/
theorem Sound.product_ne (hs : h.Sound) (ha : h.admits (dot s y) = true) :
    (dot s y == 0) = false := by
  obtain ⟨x, z, rfl, rfl, hxz⟩ := exists_of_admits hs.threshold_nonneg ha
  simp [hxz.ne']

theorem Sound.push_eq (hs : h.Sound) : (h.push s y).2 =
    if h.admits (dot s y) = true then h.put ⟨s, y, 1 / dot s y⟩ else h := by
  rw [History.push_eq hs.product_ne]
  split_ifs <;> rfl

theorem Sound.call (hs : h.Sound) (c : Call (Vector (Exact K) n)) : (h.call c).Sound := by
  cases c with
  | push s y =>
    rw [History.call, hs.push_eq]
    split_ifs with ha
    · obtain ⟨x, z, rfl, rfl, hxz⟩ := exists_of_admits hs.threshold_nonneg ha
      refine ⟨(threshold_put h _).symm ▸ hs.threshold_nonneg, fun q hq => ?_⟩
      obtain hold | rfl := mem_pairs_put h hq
      · exact hs.pairs q hold
      · refine ⟨(x, z), hxz, ?_⟩
        rw [dot_lift, one_eq, number_div hxz.ne']
        rfl
    · exact hs
  | clear => exact ⟨hs.threshold_nonneg, fun q hq => by simp [History.call] at hq⟩

theorem Sound.threshold_call (hs : h.Sound) (c : Call (Vector (Exact K) n)) :
    (h.call c).threshold = h.threshold := by
  cases c with
  | push s y =>
    rw [History.call, hs.push_eq]
    split_ifs
    · exact threshold_put h _
    · rfl
  | clear => rfl

/-- A call changes the pairs in the ring as it changes those of a memory. -/
theorem Sound.changes_call (hs : h.Sound) (c : Call (Vector (Exact K) n)) :
    (h.call c).pairs.map CurvaturePair.changes =
      retain m h.threshold (h.pairs.map CurvaturePair.changes) c := by
  cases c with
  | push s y =>
    have hadmits : h.admits (dot s y) = true ↔
        Scalar.isFinite (Space.inner s y) ∧ h.threshold < Space.inner s y := by
      simp [admits]
    rw [History.call, hs.push_eq, retain]
    by_cases ha : h.admits (dot s y) = true
    · rw [if_pos ha, if_pos (hadmits.mp ha), pairs_put, List.rtake, List.map_drop, List.map_append,
        List.rtake]
      simp [CurvaturePair.changes]
    · rw [if_neg ha, if_neg (mt hadmits.mpr ha)]
  | clear => rfl

/-- After any calls the ring is sound and holds the pairs of a memory, in their order. -/
theorem Sound.calls (hs : h.Sound) (cs : List (Call (Vector (Exact K) n))) : (h.calls cs).Sound ∧
    (h.calls cs).pairs.map CurvaturePair.changes =
      cs.foldl (retain m h.threshold) (h.pairs.map CurvaturePair.changes) := by
  induction cs generalizing h with
  | nil => exact ⟨hs, rfl⟩
  | cons c cs ih =>
    have hcall := ih (hs.call c)
    rwa [hs.threshold_call, hs.changes_call] at hcall

/-- The pairs of the field that are in the ring, oldest first. -/
theorem Sound.exists_pairs (hs : h.Sound) : ∃ pairs : List ((Fin n → K) × (Fin n → K)),
    h.pairs = pairs.map .ofField ∧ ∀ p ∈ pairs, 0 < p.1 ⬝ᵥ p.2 := by
  have hlist := hs.pairs
  generalize h.pairs = qs at hlist ⊢
  induction qs with
  | nil => exact ⟨[], rfl, nofun⟩
  | cons q qs ih =>
    rw [List.forall_mem_cons] at hlist
    obtain ⟨⟨p, hp, rfl⟩, hqs⟩ := hlist
    obtain ⟨pairs, rfl, hpairs⟩ := ih hqs
    exact ⟨p :: pairs, rfl, List.forall_mem_cons.mpr ⟨hp, hpairs⟩⟩

section NonZero
variable {pairs : List ((Fin n → K) × (Fin n → K))} (hp : h.pairs = pairs.map .ofField)
  (hne : ∀ p ∈ pairs, p.1 ⬝ᵥ p.2 ≠ 0)
include hp hne

theorem gamma_eq : h.gamma = number (scaling pairs) := by
  rw [gamma, hp, List.getLast?_map, scaling]
  cases hl : pairs.getLast? with
  | none => rfl
  | some p =>
    have hsy := hne p (List.mem_of_getLast? hl)
    have hy : p.2 ⬝ᵥ p.2 ≠ 0 := by
      rw [Ne, dotProduct_self_eq_zero]
      rintro hzero
      rw [hzero, dotProduct_zero] at hsy
      exact hsy rfl
    have hscaled : 1 / (p.1 ⬝ᵥ p.2) * (p.2 ⬝ᵥ p.2) ≠ 0 := by positivity
    simp only [Option.map_some, CurvaturePair.ofField, Space.inner_vector, dot_lift, number_mul,
      one_eq, number_div hscaled]
    congr 1
    field_simp

/-- What a ring does to a gradient, for pairs whose products may have any sign. -/
theorem apply_lift_of_ne (g : Fin n → K) :
    h.apply (lift g) = lift (-(dense pairs *ᵥ g)) := by
  rw [apply, gamma_eq hp hne, hp, twoLoop_eq_mulVec, neg_lift, dense]

end NonZero

theorem apply_lift {pairs : List ((Fin n → K) × (Fin n → K))} (hp : h.pairs = pairs.map .ofField)
    (hpos : ∀ p ∈ pairs, 0 < p.1 ⬝ᵥ p.2) (g : Fin n → K) :
    h.apply (lift g) = lift (-(dense pairs *ᵥ g)) :=
  apply_lift_of_ne hp (fun p hmem => (hpos p hmem).ne') g

/-- The direction of a ring is the negative of the dense inverse Hessian of its pairs, applied to
the gradient. After any calls these are the last pairs that were admitted, oldest first, and each of
them has a positive product. -/
theorem apply_eq_dense (hm : 0 < m) (rows : ℕ) {threshold : Exact K} (h0 : 0 ≤ threshold)
    (cs : List (Call (Vector (Exact K) n))) :
    let h := (empty rows threshold hm : History (Exact K) m (Vector (Exact K) n)).calls cs
    ∃ pairs : List ((Fin n → K) × (Fin n → K)), h.pairs = pairs.map .ofField ∧
      pairs.map (fun p => (lift p.1, lift p.2)) = retained m threshold cs ∧
      (∀ p ∈ pairs, 0 < p.1 ⬝ᵥ p.2) ∧ ∀ g, h.apply (lift g) = lift (-(dense pairs *ᵥ g)) := by
  intro h
  have hempty : (empty rows threshold hm : History (Exact K) m (Vector (Exact K) n)).Sound :=
    ⟨h0, nofun⟩
  obtain ⟨hsound, hchanges⟩ := hempty.calls cs
  obtain ⟨pairs, hpairs, hpos⟩ := hsound.exists_pairs
  refine ⟨pairs, hpairs, ?_, hpos, apply_lift hpairs hpos⟩
  rw [hpairs, List.map_map] at hchanges
  exact hchanges

/-- A ring of two pairs after three admitted ones and one that is refused: the first has been
overwritten. -/
theorem apply_eq_dense_overwritten :
    let h := (empty 2 0 two_pos : History (Exact ℚ) 2 (Vector (Exact ℚ) 2)).calls
      [.push #v[1, 0] #v[2, 1], .push #v[0, 1] #v[1, 2], .push #v[1, 0] #v[-1, 0],
        .push #v[1, 1] #v[3, 3]]
    h.pairs = [⟨#v[0, 1], #v[1, 2], number (1 / 2)⟩, ⟨#v[1, 1], #v[3, 3], number (1 / 6)⟩] ∧
      ∃ pairs : List ((Fin 2 → ℚ) × (Fin 2 → ℚ)), h.pairs = pairs.map .ofField ∧
        h.apply (lift ![1, 0]) = lift (-(dense pairs *ᵥ ![1, 0])) := by
  intro h
  have hthreshold : (0 : Exact ℚ) ≤ 0 := le_refl (0 : ℚ)
  obtain ⟨pairs, hpairs, -, -, happly⟩ := apply_eq_dense two_pos 2 hthreshold
    [.push #v[1, 0] #v[2, 1], .push #v[0, 1] #v[1, 2], .push #v[1, 0] #v[-1, 0],
      .push #v[1, 1] #v[3, 3]]
  exact ⟨by decide +kernel, pairs, hpairs, happly ![1, 0]⟩

end History

end Downhill
