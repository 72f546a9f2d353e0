import Downhill.Proofs.QuasiNewton.Dense
import Downhill.Proofs.QuasiNewton.Queue

/-! The secant condition. The update by a pair sends the change of the gradient to the step, for any
matrix that is updated; the pair that was admitted last is the one whose update comes last, so the older
pairs and their place in the ring have no part in it. -/
open Matrix

namespace Downhill
variable {K : Type} [ExactField K] {n m : ℕ}

open Exact

namespace InverseHessian
variable {s y : Fin n → K}

/-- The vector that reaches the updated matrix is zero, and the whole answer is the step. -/
theorem update_mulVec_change (h : SquareMatrix K n) (hsy : s ⬝ᵥ y ≠ 0) :
    update h (s, y) *ᵥ y = s := by
  have ha : 1 / (s ⬝ᵥ y) * (s ⬝ᵥ y) = 1 := one_div_mul_cancel hsy
  rw [update_mulVec]
  simp only [ha, one_smul, sub_self, mulVec_zero, dotProduct_zero, mul_zero, sub_zero, zero_add]

theorem dense_mulVec_change {pairs : List ((Fin n → K) × (Fin n → K))}
    (hlast : pairs.getLast? = some (s, y)) (hsy : s ⬝ᵥ y ≠ 0) : dense pairs *ᵥ y = s := by
  obtain ⟨older, rfl⟩ := List.getLast?_eq_some_iff.mp hlast
  rw [dense, List.foldl_append]
  exact update_mulVec_change _ hsy

end InverseHessian

namespace History
open InverseHessian

/-- In a sound ring of any rotation, whatever its older pairs are. -/
theorem Sound.apply_change {h : History (Exact K) m (Vector (Exact K) n)} (hs : h.Sound)
    {p : CurvaturePair (Exact K) (Vector (Exact K) n)} (hp : h.pairs.getLast? = some p) :
    h.apply p.y = -p.s := by
  obtain ⟨pairs, hpairs, hpos⟩ := hs.exists_pairs
  rw [hpairs, List.getLast?_map, Option.map_eq_some_iff] at hp
  obtain ⟨⟨s, y⟩, hlast, rfl⟩ := hp
  have hsecant := dense_mulVec_change hlast (hpos _ (List.mem_of_getLast? hlast)).ne'
  simp only [CurvaturePair.ofField, apply_lift hpairs hpos, hsecant, neg_lift]

variable {k rows : ℤ} {threshold : Exact K}
  {ring : History (Exact K) k.toNat (Vector (Exact K) n)}

/-- After any calls a ring that is not empty holds the pair that was admitted last as its newest
one, and it sends the change of the gradient across that pair to the opposite of its step. -/
theorem applyTo_newest (hmake : make k rows threshold = .ok ring) (h0 : 0 ≤ threshold)
    (cs : List (Call (Vector (Exact K) n))) :
    let h := ring.calls cs
    h.pairs.getLast? = (admittedSince threshold cs).getLast?.map .ofChanges ∧
      (h.size ≠ 0 → ∃ p, h.pairs.getLast? = some p) ∧
      ∀ p, h.pairs.getLast? = some p → h.applyTo p.y = .ok (-p.s) := by
  intro h
  unfold make at hmake
  split_ifs at hmake with hm hrows
  obtain rfl := Except.ok.inj hmake
  have hempty : (empty rows.toNat threshold (by omega) :
      History (Exact K) k.toNat (Vector (Exact K) n)).Sound := ⟨h0, nofun⟩
  have hqueued : Queued h threshold cs := .calls h0 (by omega) cs
  refine ⟨?_, fun hsize => ?_, fun p hp => ?_⟩
  · rw [hqueued.pairs_eq, List.getLast?_map, getLast?_rtake _ h.pos]
  · rw [← Option.isSome_iff_exists, List.getLast?_isSome, Ne, ← List.length_eq_zero_iff,
      length_pairs]
    exact hsize
  · rw [applyTo_vector, (hempty.calls cs).1.apply_change hp]

/-- A ring of two pairs in which the third pair went over the first: the newest pair is in the slot
before the oldest. -/
theorem applyTo_newest_overwritten :
    let cs : List (Call (Vector (Exact ℚ) 2)) := [.push #v[1, 0] #v[2, 1], .push #v[0, 1] #v[1, 2],
      .push #v[1, 0] #v[-1, 0], .push #v[1, 1] #v[3, 2]]
    ∃ ring : History (Exact ℚ) 2 (Vector (Exact ℚ) 2), make 2 2 0 = .ok ring ∧
      (ring.calls cs).start = 1 ∧ (ring.calls cs).size = 2 ∧
      (ring.calls cs).applyTo #v[3, 2] = .ok #v[-1, -1] := by
  intro cs
  have hmake : (make 2 2 0 : Except (Fault (Exact ℚ)) (History (Exact ℚ) 2 (Vector (Exact ℚ) 2))) =
      .ok (empty 2 0 two_pos) := rfl
  have hthreshold : (0 : Exact ℚ) ≤ 0 := le_refl (0 : ℚ)
  obtain ⟨-, -, hsecant⟩ := applyTo_newest (k := 2) hmake hthreshold cs
  have hnewest := hsecant ⟨#v[1, 1], #v[3, 2], number (1 / 5)⟩ (by decide +kernel)
  exact ⟨_, hmake, by decide +kernel, by decide +kernel,
    hnewest.trans (congrArg Except.ok (by decide +kernel))⟩

end History

end Downhill
