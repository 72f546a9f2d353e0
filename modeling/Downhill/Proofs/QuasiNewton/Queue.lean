import Downhill.Proofs.Linear.ZeroApart
import Downhill.Proofs.QuasiNewton.Ring

/-! The ring of curvature pairs as a bounded queue. Whatever is pushed and wherever the ring is
cleared, it holds the last pairs that were admitted since then, as many as it has room for, and each
of its slots keeps the reciprocal of its own pair. -/
namespace Downhill
variable {α : Type} [Scalar α] {n m : ℕ}

/-- A step and the change of the gradient, as a ring stores them. -/
def CurvaturePair.ofChanges (p : Vector α n × Vector α n) : CurvaturePair α (Vector α n) :=
  ⟨p.1, p.2, 1 / dot p.1 p.2⟩

namespace History

/-- A product that a threshold lets through. -/
def Passes (threshold sy : α) : Prop := Scalar.isFinite sy = true ∧ threshold < sy

instance decidablePasses (threshold sy : α) : Decidable (Passes threshold sy) :=
  inferInstanceAs (Decidable (_ ∧ _))

namespace Call
variable {V : Type} [Space α V]

def isPush : Call V → Bool
  | push _ _ => true
  | clear => false

/-- The pair that a call adds. -/
def admitted? (threshold : α) : Call V → Option (V × V)
  | push s y => if Passes threshold (Space.inner s y) then some (s, y) else none
  | clear => none

end Call

/-- The pairs that were admitted since the last call that cleared the ring, oldest first. -/
def admittedSince {V : Type} [Space α V] (threshold : α) (cs : List (Call V)) : List (V × V) :=
  (cs.rtakeWhile Call.isPush).filterMap (Call.admitted? threshold)

section Admitted
variable {V : Type} [Space α V] (threshold : α) (cs : List (Call V))

@[simp] theorem admittedSince_clear : admittedSince threshold (cs ++ [.clear]) = [] := by
  simp [admittedSince, Call.isPush]

theorem admittedSince_push (s y : V) : admittedSince threshold (cs ++ [.push s y]) =
    if Passes threshold (Space.inner s y) then admittedSince threshold cs ++ [(s, y)]
    else admittedSince threshold cs := by
  simp only [admittedSince, List.rtakeWhile_concat, Call.isPush, if_true, List.filterMap_append]
  split_ifs with h
  · simp [Call.admitted?, h]
  · simp [Call.admitted?, h]

end Admitted

theorem rtake_rtake_append_singleton {β : Type} (l : List β) (b : β) (m : ℕ) :
    (l.rtake m ++ [b]).rtake m = (l ++ [b]).rtake m := by
  cases m with
  | zero => simp
  | succ m =>
    rw [List.rtake_concat_succ, List.rtake_concat_succ, List.rtake_eq_reverse_take_reverse,
      List.rtake_eq_reverse_take_reverse l, List.rtake_eq_reverse_take_reverse l,
      List.reverse_reverse, List.take_take, min_eq_left m.le_succ]

theorem map_rtake {β γ : Type} (f : β → γ) (l : List β) (m : ℕ) :
    (l.rtake m).map f = (l.map f).rtake m := by
  rw [List.rtake, List.rtake, List.map_drop, List.length_map]

theorem length_rtake {β : Type} (l : List β) (m : ℕ) : (l.rtake m).length = min m l.length := by
  rw [List.rtake, List.length_drop]
  omega

theorem getLast?_rtake {β : Type} (l : List β) {m : ℕ} (hm : 0 < m) :
    (l.rtake m).getLast? = l.getLast? := by
  rw [List.rtake, List.getLast?_drop]
  cases l with
  | nil => simp
  | cons a l => rw [if_neg (by rw [List.length_cons]; omega)]

theorem admits_iff {h : History α m (Vector α n)} {sy : α} :
    h.admits sy = true ↔ Passes h.threshold sy := by
  simp [admits, Passes]

/-- A slot keeps the reciprocal of its own pair, or it is as it was made. -/
def Matched (n : ℕ) (p : CurvaturePair α (Vector α n)) : Prop :=
  p.rho = 1 / dot p.s p.y ∨ p = ⟨Space.zeros n, Space.zeros n, 0⟩

variable [ZeroApart α] {threshold : α}

/-- What holds of a ring after some calls. -/
structure Queued (h : History α m (Vector α n)) (threshold : α) (cs : List (Call (Vector α n))) :
    Prop where
  threshold_eq : h.threshold = threshold
  pairs_eq : h.pairs = ((admittedSince threshold cs).rtake m).map .ofChanges
  matched : ∀ i, Matched n (h.slots.get i)

namespace Queued
variable {h : History α m (Vector α n)} {cs : List (Call (Vector α n))}
  {s y : Vector α n}

omit [ZeroApart α] in
theorem empty (hm : 0 < m) :
    Queued (History.empty n threshold hm : History α m (Vector α n)) threshold [] := by
  refine ⟨rfl, ?_, fun i => .inr ?_⟩
  · rw [admittedSince, List.rtakeWhile_nil, List.filterMap_nil, List.rtake_nil]
    rfl
  · simp [History.empty]

theorem push_eq (h0 : 0 ≤ threshold) (hq : Queued h threshold cs) :
    h.push s y = if Passes threshold (dot s y) then (.ok true, h.put (.ofChanges (s, y)))
      else (.ok false, h) := by
  have hz : h.admits (dot s y) = true → (dot s y == 0) = false := by
    intro ha
    have hpasses := admits_iff.mp ha
    rw [hq.threshold_eq] at hpasses
    exact ZeroApart.beq_zero threshold _ h0 hpasses.2
  rw [History.push_eq hz]
  simp only [admits_iff, hq.threshold_eq]
  rfl

/-- The answer says whether the pair was admitted. -/
theorem answer_push (h0 : 0 ≤ threshold) (hq : Queued h threshold cs) (s y : Vector α n) :
    (h.push s y).1 = .ok (decide (Passes threshold (dot s y))) := by
  rw [hq.push_eq h0]
  by_cases hp : Passes threshold (dot s y) <;> simp [hp]

omit [ZeroApart α] in
theorem put (hq : Queued h threshold cs) (hp : Passes threshold (dot s y)) :
    Queued (h.put (.ofChanges (s, y))) threshold (cs ++ [.push s y]) := by
  refine ⟨?_, ?_, fun i => ?_⟩
  · rw [threshold_put, hq.threshold_eq]
  · have hsince := admittedSince_push threshold cs s y
    rw [Space.inner_vector, if_pos hp] at hsince
    rw [pairs_put, hq.pairs_eq, hsince, map_rtake, map_rtake, rtake_rtake_append_singleton,
      List.map_append, List.map_singleton]
  · simp only [History.put, get_eq_getElem]
    by_cases hi : h.claim.1 = i
    · subst hi
      exact .inl (by simp [CurvaturePair.ofChanges])
    · have hne : (h.claim.1 : ℕ) ≠ i := fun heq => hi (Fin.ext heq)
      simp only [Fin.getElem_fin, Vector.getElem_set_ne (h := hne)]
      exact hq.matched i

theorem call (h0 : 0 ≤ threshold) (hq : Queued h threshold cs) (c : Call (Vector α n)) :
    Queued (h.call c) threshold (cs ++ [c]) := by
  cases c with
  | push s y =>
    rw [History.call, hq.push_eq h0]
    split_ifs with hp
    · exact hq.put hp
    · have hsince := admittedSince_push threshold cs s y
      rw [Space.inner_vector, if_neg hp] at hsince
      refine ⟨hq.threshold_eq, ?_, hq.matched⟩
      rw [hsince]
      exact hq.pairs_eq
  | clear =>
    refine ⟨hq.threshold_eq, ?_, hq.matched⟩
    rw [admittedSince_clear, List.rtake_nil]
    rfl

theorem calls (h0 : 0 ≤ threshold) (hm : 0 < m) (cs : List (Call (Vector α n))) :
    Queued ((History.empty n threshold hm : History α m (Vector α n)).calls cs) threshold cs := by
  induction cs using List.reverseRecOn with
  | nil => exact .empty hm
  | append_singleton cs c ih =>
    rw [History.calls, List.foldl_append]
    exact ih.call h0 c

section Seen
variable (hq : Queued h threshold cs)
include hq

omit [ZeroApart α]

theorem size_eq : h.size = min m (admittedSince threshold cs).length := by
  rw [← length_pairs, hq.pairs_eq, List.length_map, length_rtake]

/-- The scaling is that of the pair that was admitted last. -/
theorem gamma_eq : h.gamma = (admittedSince threshold cs).getLast?.elim 1
    fun p => 1 / (1 / dot p.1 p.2 * dot p.2 p.2) := by
  have hlast : h.pairs.getLast? = (admittedSince threshold cs).getLast?.map .ofChanges := by
    rw [hq.pairs_eq, List.getLast?_map, getLast?_rtake _ h.pos]
  rw [gamma, hlast]
  cases (admittedSince threshold cs).getLast? <;> rfl

end Seen

end Queued

end History
end Downhill
