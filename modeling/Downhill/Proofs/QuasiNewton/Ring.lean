import Mathlib
import Downhill.Direction.QuasiNewton.History
import Downhill.Linear.Euclidean

/-! The ring of curvature pairs, seen from outside: a list of pairs, oldest first. A new pair goes
to its end, and a full ring drops the first. -/
namespace Downhill.History
variable {α V : Type} {m : ℕ}

/-- Slots at different distances from one place differ, as long as the distances are below the
capacity. -/
theorem slot_ne (start : ℕ) {j k : ℕ} (hj : j < m) (hk : k < m) (h : j ≠ k) :
    (start + j) % m ≠ (start + k) % m := by
  intro heq
  have hmod : j ≡ k [MOD m] := Nat.ModEq.add_left_cancel' start heq
  exact h (hmod.eq_of_lt_of_lt hj hk)

variable (h : History α m V)

theorem getElem_pairs (k : ℕ) (hk : k < h.pairs.length) (hslot : (h.start + k) % m < m) :
    h.pairs[k] = h.slots[(h.start + k) % m] := by
  simp [pairs, slot]

/-- Puts a pair behind the newest one, over the oldest one in a full ring. -/
def put (p : CurvaturePair α V) : History α m V :=
  { h.claim.2 with slots := h.slots.set h.claim.1 p }

theorem claim_of_lt (hs : h.size < m) :
    h.claim = (h.slot h.size, { h with size := h.size + 1, size_le := hs }) := dif_pos hs

theorem claim_of_not_lt (hs : ¬ h.size < m) :
    h.claim = (⟨h.start, h.start_lt⟩,
      { h with start := (h.start + 1) % m, start_lt := Nat.mod_lt _ h.pos }) := dif_neg hs

theorem pairs_put_of_lt (p : CurvaturePair α V) (hs : h.size < m) :
    (h.put p).pairs = h.pairs ++ [p] := by
  have hsize : (h.put p).size = h.size + 1 := by simp only [put, claim_of_lt h hs]
  refine List.ext_getElem (by simp [hsize]) fun k hk hk' => ?_
  rw [length_pairs, hsize] at hk
  rw [getElem_pairs _ _ _ (Nat.mod_lt _ h.pos)]
  simp only [put, claim_of_lt h hs, slot]
  by_cases hlast : k = h.size
  · subst hlast
    rw [Vector.getElem_set_self, List.getElem_append_right (by simp)]
    simp
  · have hlt : k < h.size := by omega
    rw [Vector.getElem_set_ne (h := slot_ne h.start hs (by omega) (Ne.symm hlast)),
      List.getElem_append_left (by simpa using hlt), getElem_pairs]

/-- The ring is full: the pair joins the others at the end, and the first one goes. -/
theorem pairs_put_of_not_lt (p : CurvaturePair α V) (hs : ¬ h.size < m) :
    (h.put p).pairs = h.pairs.tail ++ [p] := by
  have hfull : h.size = m := le_antisymm h.size_le (not_lt.mp hs)
  have hsize : (h.put p).size = m := by simp only [put, claim_of_not_lt h hs, hfull]
  have hpos := h.pos
  refine List.ext_getElem (by simp [hsize, hfull]; omega) fun k hk hk' => ?_
  rw [length_pairs, hsize] at hk
  rw [getElem_pairs _ _ _ (Nat.mod_lt _ h.pos)]
  simp only [put, claim_of_not_lt h hs, Nat.mod_add_mod, add_assoc]
  by_cases hlast : 1 + k = m
  · have hslot : (h.start + (1 + k)) % m = h.start := by
      rw [hlast, Nat.add_mod_right, Nat.mod_eq_of_lt h.start_lt]
    simp only [hslot, Vector.getElem_set_self]
    rw [List.getElem_append_right (by simp [hfull]; omega)]
    simp
  · have hne : h.start ≠ (h.start + (1 + k)) % m := by
      have := slot_ne h.start hpos (show 1 + k < m by omega) (by omega)
      rwa [add_zero, Nat.mod_eq_of_lt h.start_lt] at this
    rw [Vector.getElem_set_ne (h := hne), List.getElem_append_left (by simp [hfull]; omega),
      List.getElem_tail, getElem_pairs _ _ _ (Nat.mod_lt _ hpos)]
    simp only [add_comm 1 k]

/-- The ring keeps as many of the newest pairs as it has room for. -/
theorem pairs_put (p : CurvaturePair α V) : (h.put p).pairs = (h.pairs ++ [p]).rtake m := by
  rw [List.rtake, List.length_append, List.length_singleton, length_pairs]
  by_cases hs : h.size < m
  · rw [pairs_put_of_lt h p hs, Nat.sub_eq_zero_of_le hs, List.drop_zero]
  · have hsize := h.size_le
    have hone : h.size + 1 - m = 1 := by omega
    have hnonempty : h.pairs ≠ [] := by
      have hpos := h.pos
      rw [← List.length_pos_iff, length_pairs]
      omega
    rw [pairs_put_of_not_lt h p hs, hone, List.drop_one, List.tail_append_of_ne_nil hnonempty]

theorem mem_pairs_put {p q : CurvaturePair α V} (hq : q ∈ (h.put p).pairs) :
    q ∈ h.pairs ∨ q = p := by
  rw [pairs_put] at hq
  simpa using List.mem_of_mem_drop hq

theorem threshold_put (p : CurvaturePair α V) : (h.put p).threshold = h.threshold := by
  unfold put claim
  split_ifs <;> rfl

section Calls
variable [Scalar α] [Space α V]

/-- A call that may change a ring. -/
inductive Call (V : Type) where
  | push (s y : V)
  | clear

/-- The ring after a call. -/
def call (h : History α m V) : Call V → History α m V
  | .push s y => (h.push s y).2
  | .clear => h.clear

/-- The ring after some calls. -/
def calls (h : History α m V) (cs : List (Call V)) : History α m V := cs.foldl call h

/-- What a memory of `m` pairs holds after a call: a pair that is admitted joins the others, and the
oldest one goes if there are too many; nothing is left after the memory was cleared. -/
def retain (m : ℕ) (threshold : α) (ps : List (V × V)) : Call V → List (V × V)
  | .push s y =>
    if Scalar.isFinite (Space.inner s y) ∧ threshold < Space.inner s y then
      (ps ++ [(s, y)]).rtake m
    else ps
  | .clear => []

/-- The last `m` pairs that were admitted since the memory was last cleared, oldest first. -/
def retained (m : ℕ) (threshold : α) (cs : List (Call V)) : List (V × V) :=
  cs.foldl (retain m threshold) []

end Calls

theorem make_of_pos [Scalar α] [Space α V] {m : ℤ} {n : ℕ} (hm : 0 < m.toNat) (hn : 0 < n)
    (threshold : α) :
    make m n threshold = .ok (empty n threshold hm : History α m.toNat V) := by
  rw [make, dif_pos (by omega), if_pos (by omega), Int.toNat_natCast]

section Vectors
variable [Scalar α] {n : ℕ} {h : History α m (Vector α n)} {s y : Vector α n}

theorem store_eq (hz : (dot s y == 0) = false) :
    h.store s y (dot s y) = (.ok true, h.put ⟨s, y, 1 / dot s y⟩) := by
  have hslots : h.claim.2.slots = h.slots := by
    unfold claim
    split_ifs <;> rfl
  rcases hc : h.claim with ⟨i, h'⟩
  simp only [hc] at hslots
  simp [store, write, modifySlot, put, hc, hz, hslots]

theorem push_eq (hz : h.admits (dot s y) = true → (dot s y == 0) = false) :
    h.push s y = if h.admits (dot s y) = true then (.ok true, h.put ⟨s, y, 1 / dot s y⟩)
      else (.ok false, h) := by
  have hproduct : Space.product? s y = .ok (dot s y) := Space.product?_vector s y
  simp only [push, hproduct]
  split_ifs with ha
  · exact store_eq (hz ha)
  · rfl

/-- Every gradient fits the rows. -/
theorem applyTo_vector (g : Vector α n) : h.applyTo g = .ok (h.apply g) := by
  have hcheck : h.applyCheck g = .ok () := by
    unfold applyCheck
    split <;> rfl
  rw [applyTo, hcheck]
  rfl

end Vectors

end Downhill.History
