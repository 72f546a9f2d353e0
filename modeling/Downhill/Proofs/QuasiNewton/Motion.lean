import Downhill.Proofs.Direction.Motion
import Downhill.Proofs.QuasiNewton.Definite

/-! Limited memories in other coordinates. The pairs in the ring turn with the coordinates, and with
them the inverse Hessian that they stand for; what admits a pair is its product, which stays. -/
open Matrix

namespace Downhill
variable {K : Type} [ExactField K] {n k : ℕ} (m : RigidMotion K n)

open Exact

namespace RigidMotion

/-- A pair of the field in the new coordinates. -/
def turnPair (p : (Fin n → K) × (Fin n → K)) : (Fin n → K) × (Fin n → K) := (m.turn p.1, m.turn p.2)

end RigidMotion

namespace InverseHessian
variable (pairs : List ((Fin n → K) × (Fin n → K)))

theorem scaling_turned : scaling (pairs.map m.turnPair) = scaling pairs := by
  rw [scaling, scaling, List.getLast?_map]
  cases pairs.getLast? <;> simp [RigidMotion.turnPair]

/-- The update by turned pairs, at a turned vector. -/
theorem foldl_update_turned (c : K) (q : Fin n → K) :
    (pairs.map m.turnPair).foldl update (c • 1) *ᵥ m.turn q =
      m.turn (pairs.foldl update (c • 1) *ᵥ q) := by
  induction pairs using List.reverseRecOn generalizing q with
  | nil => simp [smul_mulVec, m.turn_smul]
  | append_singleton pairs p ih =>
    obtain ⟨s, y⟩ := p
    rw [List.map_append, List.foldl_append, List.foldl_append]
    simp only [List.map_singleton, List.foldl_cons, List.foldl_nil, RigidMotion.turnPair,
      update_mulVec, m.turn_dotProduct, ← m.turn_smul, ← m.turn_sub, ih, ← m.turn_add]

theorem dense_turned (q : Fin n → K) :
    dense (pairs.map m.turnPair) *ᵥ m.turn q = m.turn (dense pairs *ᵥ q) := by
  rw [dense, dense, scaling_turned, foldl_update_turned]

end InverseHessian

namespace History
open InverseHessian

/-- The second ring has the pairs of the first one in the new coordinates. None of their products is
zero. -/
def Turned (h h' : History (Exact K) k (Vector (Exact K) n)) : Prop :=
  h'.threshold = h.threshold ∧ ∃ pairs : List ((Fin n → K) × (Fin n → K)),
    (∀ p ∈ pairs, p.1 ⬝ᵥ p.2 ≠ 0) ∧ h.pairs = pairs.map .ofField ∧
      h'.pairs = (pairs.map m.turnPair).map .ofField

variable {m} {h h' : History (Exact K) k (Vector (Exact K) n)}

theorem Turned.size_eq (hh : Turned m h h') : h'.size = h.size := by
  obtain ⟨-, pairs, -, hp, hp'⟩ := hh
  rw [← length_pairs, ← length_pairs, hp, hp', List.length_map, List.length_map, List.length_map]

theorem Turned.clear (hh : Turned m h h') : Turned m h.clear h'.clear :=
  ⟨hh.1, [], by simp, rfl, rfl⟩

/-- The directions of the two rings. -/
theorem Turned.directions_apply (hh : Turned m h h') (g : Fin n → K) :
    m.Directions (h.apply (lift g)) (h'.apply (lift (m.turn g))) := by
  obtain ⟨-, pairs, hne, hp, hp'⟩ := hh
  have hne' : ∀ p ∈ pairs.map m.turnPair, p.1 ⬝ᵥ p.2 ≠ 0 := by
    intro p hmem
    obtain ⟨q, hq, rfl⟩ := List.mem_map.mp hmem
    simpa [RigidMotion.turnPair] using hne q hq
  refine .inl ⟨-(dense pairs *ᵥ g), apply_lift_of_ne hp hne g, ?_⟩
  rw [apply_lift_of_ne hp' hne', dense_turned, m.turn_neg]

theorem Turned.admits_eq (hh : Turned m h h') (a : Exact K) : h'.admits a = h.admits a := by
  rw [admits, admits, hh.1]

/-- Pairs that are images of each other go into both rings. -/
theorem Turned.put (hh : Turned m h h') {s y : Fin n → K} (hsy : s ⬝ᵥ y ≠ 0) :
    Turned m (h.put (.ofField (s, y))) (h'.put (.ofField (m.turnPair (s, y)))) := by
  obtain ⟨hthreshold, pairs, hne, hp, hp'⟩ := hh
  refine ⟨by rw [threshold_put, threshold_put, hthreshold], (pairs ++ [(s, y)]).rtake k, ?_, ?_, ?_⟩
  · intro p hmem
    obtain hold | hnew := List.mem_append.mp (List.mem_of_mem_drop hmem)
    · exact hne p hold
    · rw [List.mem_singleton.mp hnew]
      exact hsy
  · rw [pairs_put, hp]
    simp [List.rtake]
  · rw [pairs_put, hp']
    simp [List.rtake]

/-- A pair whose product is zero cannot be stored. -/
theorem push_lift_of_zero {s y : Fin n → K} (hadmits : h.admits (number (s ⬝ᵥ y)) = true)
    (hsy : s ⬝ᵥ y = 0) : ∃ ring, h.push (lift s) (lift y) = (.error .zeroDivision, ring) := by
  have hproduct : Space.product? (lift s) (lift y) = .ok (number (s ⬝ᵥ y)) := by
    rw [Space.product?_vector, dot_lift]
  rw [hsy] at hadmits hproduct
  simp only [push, hproduct, if_pos hadmits]
  rcases hc : h.claim with ⟨i, h'⟩
  exact ⟨_, by simp [store, write, hc]; rfl⟩

/-- A pair that is admitted is stored unless its product is zero. -/
theorem push_lift_of_ne {s y : Fin n → K} (hadmits : h.admits (number (s ⬝ᵥ y)) = true)
    (hsy : s ⬝ᵥ y ≠ 0) : h.push (lift s) (lift y) = (.ok true, h.put (.ofField (s, y))) := by
  have hzero : (dot (lift s) (lift y) == 0) = false := by simpa using hsy
  rw [push_eq fun _ => hzero, dot_lift, if_pos hadmits, one_eq, number_div hsy]
  rfl

theorem push_lift_of_not {s y : Fin n → K} (hadmits : ¬ h.admits (number (s ⬝ᵥ y)) = true) :
    h.push (lift s) (lift y) = (.ok false, h) := by
  have hproduct : Space.product? (lift s) (lift y) = .ok (number (s ⬝ᵥ y)) := by
    rw [Space.product?_vector, dot_lift]
  simp only [push, hproduct, if_neg hadmits]

end History

namespace QuasiNewton
variable {m}

/-- The states of two strategies that follow a run and its image. -/
def Turned (m : RigidMotion K n) (st st' : State (Exact K) k (Vector (Exact K) n)) : Prop :=
  (∃ h h', st.history = some h ∧ st'.history = some h' ∧ History.Turned m h h') ∧
    st'.skipped = st.skipped

def SameSkipped (st st' : State (Exact K) k (Vector (Exact K) n)) : Prop := st'.skipped = st.skipped

theorem Turned.sameSkipped (st st' : State (Exact K) k (Vector (Exact K) n)) (h : Turned m st st') :
    SameSkipped st st' := h.2

theorem matches_current (missing : Fault (Exact K)) :
    Act.Matches (Turned m) SameSkipped (History.Turned m)
      (current missing : Act (State (Exact K) k (Vector (Exact K) n)) _ _ _) (current missing) := by
  refine .state ?_
  rintro ⟨_, skipped⟩ ⟨_, _⟩ ⟨⟨h, h', rfl, rfl, hh⟩, rfl⟩
  exact .pure hh

theorem matches_keep {h h' : History (Exact K) k (Vector (Exact K) n)}
    (hh : History.Turned m h h') :
    Act.Matches (Turned m) SameSkipped (fun _ _ => True)
      (Act.modifyState fun st => { st with history := some h } :
        Act (State (Exact K) k (Vector (Exact K) n)) (Exact K) (Vector (Exact K) n) Unit)
      (Act.modifyState fun st => { st with history := some h' }) :=
  .modifyState fun _ _ hst => ⟨⟨h, h', rfl, rfl, hh⟩, hst.2⟩

/-- Both strategies store the pair of a step, or both skip it, or both fail to invert its
product. -/
theorem matches_learn (s y : Fin n → K) :
    Act.Matches (Turned m) SameSkipped (fun _ _ => True)
      (learn (lift s) (lift y) : Act (State (Exact K) k (Vector (Exact K) n)) _ _ _)
      (learn (lift (m.turn s)) (lift (m.turn y))) := by
  refine .bind (matches_current _) fun h h' hh => ?_
  have hadmits' : h'.admits (number (m.turn s ⬝ᵥ m.turn y)) = h.admits (number (s ⬝ᵥ y)) := by
    rw [m.turn_dotProduct, hh.admits_eq]
  by_cases hadmits : h.admits (number (s ⬝ᵥ y)) = true
  · by_cases hsy : s ⬝ᵥ y = 0
    · -- The rings are left half written, and the fault ends both runs.
      obtain ⟨ring, hring⟩ := History.push_lift_of_zero hadmits hsy
      obtain ⟨ring', hring'⟩ := History.push_lift_of_zero (hadmits'.trans hadmits)
        ((m.turn_dotProduct s y).trans hsy)
      rw [hring, hring']
      refine Alike.bind (D := fun _ t _ t' => Joint SameSkipped t t') ?_ fun _ _ => ?_
      · exact fun t t' ht => ⟨ht.1.2, ht.2⟩
      · exact Alike.throw _ fun _ _ ht => ht
    · rw [History.push_lift_of_ne hadmits hsy,
        History.push_lift_of_ne (hadmits'.trans hadmits) (by rwa [m.turn_dotProduct])]
      exact .bind (matches_keep (hh.put hsy)) fun _ _ _ => .pure trivial
  · rw [History.push_lift_of_not hadmits, History.push_lift_of_not (hadmits' ▸ hadmits)]
    refine .bind (matches_keep hh) fun _ _ _ => .bind (.modifyState ?_) fun _ _ _ => .remark _ _
    rintro st st' ⟨hst, hskipped⟩
    exact ⟨hst, congrArg (· + 1) hskipped⟩

/-- A ring is made for a run and its image, or the capacity or the dimension is refused. -/
theorem begin_moved (s : QuasiNewton (Exact K)) (x x' : Vector (Exact K) n) :
    (∃ e, s.begin x = .error e ∧ s.begin x' = .error e) ∨
      ∃ st st', s.begin x = .ok st ∧ s.begin x' = .ok st' ∧ Turned m st st' := by
  have hsame : s.begin x' = s.begin x := rfl
  rw [hsame]
  cases hbegin : s.begin x with
  | error e => exact .inl ⟨e, rfl, rfl⟩
  | ok st =>
    refine .inr ⟨st, st, rfl, rfl, ?_, rfl⟩
    obtain ⟨ring, hmake, hst⟩ := bind_eq_ok_iff.mp hbegin
    cases hst
    refine ⟨ring, ring, rfl, rfl, rfl, [], by simp, ?_⟩
    unfold History.make at hmake
    split_ifs at hmake
    cases hmake
    exact ⟨rfl, rfl⟩

/-- Limited-memory directions follow a run and its image, and skip the same pairs. -/
theorem follows (s : QuasiNewton (Exact K)) (f : (Fin n → K) → K) (g : (Fin n → K) → Fin n → K)
    (o o' : Oracle (Exact K) (Vector (Exact K) n) (Matrix (Exact K) n)) :
    Strategy.Follows s.strategy m f g o o' (Turned m) SameSkipped where
  left := Turned.sameSkipped
  prepare x st := s.begin_moved _ _
  compute x := by
    refine .bind (matches_current _) fun h h' hh => ?_
    have hdirections := hh.directions_apply (g x)
    rw [← m.turned_lift] at hdirections
    have happly : (h.applyTo (iterateAt f g x).gradient) = .ok (h.apply (lift (g x))) :=
      History.applyTo_vector _
    have happly' : (h'.applyTo (m.iterate (iterateAt f g x)).gradient) =
        .ok (h'.apply (m.turned (lift (g x)))) := History.applyTo_vector _
    rw [happly, happly']
    exact .pure hdirections
  initialStep w d := by
    refine .bind (matches_current _) fun h h' hh =>
      .ite (by rw [hh.size_eq]) (fun _ => ?_) fun _ => ?_
    · exact .of_eq Turned.sameSkipped (cautiousStep_turn m w) fun _ _ => .pure rfl
    · exact .pure rfl
  update s y w alpha d := matches_learn s y
  reset := .bind (matches_current _) fun h h' hh => matches_keep hh.clear

end QuasiNewton

end Downhill
