import Downhill.Proofs.Ensures
import Downhill.Proofs.Linear.Reciprocal
import Downhill.Proofs.QuasiNewton.Queue
import Downhill.Tensor.Space

/-! Offers of any extents to a ring of curvature pairs. A pair may have no product, or one that does
not pass the threshold, and then the ring stays as it is. A pair that passes is given a slot before
its rows are written and its product is inverted: rows that do not fit, and a product that is zero,
leave a slot in use that has a stale reciprocal. Where the threshold is not negative and what passes
it has the extents of the rows, neither happens, and all pairs have positive products. -/
namespace Downhill

/-- A product of stacks of matrices that has no extents is one of vectors. -/
theorem Shape.eq_of_stackedProduct? {a b : Shape} (h : stackedProduct? a b = some []) :
    ∃ k, a = [k] ∧ b = [k] := by
  rw [stackedProduct?] at h
  split at h
  · cases h
  · cases h
  · rename_i k ra p ha hb
    split_ifs at h with hk
    · obtain rfl : ra = [] := by simpa using h
      exact ⟨k, List.reverse_eq_iff.mp ha, hk ▸ List.reverse_eq_iff.mp hb⟩
  · split_ifs at h
    simp at h
  · split_ifs at h
    simp at h

namespace Tensor
variable {α : Type} [Scalar α] {t u : Tensor α} {s : Shape} {k n : ℕ}

theorem shape_stretch (t : Tensor α) (s : Shape) : (t.stretch s).shape = s := by
  rw [stretch]
  split_ifs with h
  · exact h
  · rfl

theorem shape_of_fill? (h : t.fill? s = some u) : u.shape = s := by
  simp only [fill?] at h
  split_ifs at h
  all_goals
    obtain rfl := Option.some.inj h
    exact shape_stretch _ s

/-- Whether a vector can be written over another one is decided by the two lengths. -/
theorem fill?_vector (ht : t.shape = [k]) :
    t.fill? [n] = if Shape.join? [n] [k] = some [n] then some (t.stretch [n]) else none := by
  obtain ⟨shape, entries⟩ := t
  subst ht
  rfl

theorem fill?_of_shape (h : t.shape = s) : t.fill? s = some t := by
  rw [← h, fill?_self]

omit [Scalar α] in
theorem numberCheck_eq_ok_iff {o : Option Shape} :
    (numberCheck o : Except (Fault α) Unit) = .ok () ↔ o = some [] := by
  rcases o with _ | _ | _ <;> simp [numberCheck]

/-- Arrays with a product are vectors of one length. -/
theorem shape_of_product? {a : α} (h : Space.product? t u = .ok a) :
    ∃ k, t.shape = [k] ∧ u.shape = [k] ∧ inner t u = a := by
  obtain ⟨⟨⟩, hcheck, ha⟩ := bind_eq_ok_iff.mp h
  obtain ⟨k, ht, hu⟩ := Shape.eq_of_stackedProduct? (numberCheck_eq_ok_iff.mp hcheck)
  exact ⟨k, ht, hu, Except.ok.inj ha⟩

end Tensor

namespace History
variable {α V : Type} {m : ℕ}

theorem slots_claim (h : History α m V) : h.claim.2.slots = h.slots := by
  unfold claim
  split_ifs <;> rfl

section Store
variable [Scalar α] [Space α V] {h : History α m V} {s y a b : V} (sy : α)

/-- Rows that fit are written before the product is inverted. -/
theorem store_of_fit (hs : Space.write? (h.slots.get h.claim.1).s s = some a)
    (hy : Space.write? (h.slots.get h.claim.1).y y = some b) : h.store s y sy =
      if sy == 0 then (.error .zeroDivision, h.put ⟨a, b, (h.slots.get h.claim.1).rho⟩)
      else (.ok true, h.put ⟨a, b, 1 / sy⟩) := by
  have hslots := slots_claim h
  rcases hc : h.claim with ⟨i, h'⟩
  simp only [hc, get_eq_getElem, Fin.getElem_fin] at hs hy hslots
  simp only [store, write, modifySlot, put, hc, hslots, get_eq_getElem, hs, Fin.getElem_fin,
    Vector.getElem_set_self, hy, Vector.set_set]

/-- A row that does not fit leaves its slot as it was, but in use. -/
theorem store_of_misfit (hs : Space.write? (h.slots.get h.claim.1).s s = none) :
    h.store s y sy = (.error .lengths, h.put (h.slots.get h.claim.1)) := by
  have hslots := slots_claim h
  rcases hc : h.claim with ⟨i, h'⟩
  simp only [hc, get_eq_getElem, Fin.getElem_fin] at hs hslots
  simp only [store, write, put, hc, hslots, get_eq_getElem, hs, Fin.getElem_fin,
    Vector.set_getElem_self]
  rw [← hslots]

end Store

section Arrays
variable [Scalar α] {n : ℕ} {threshold : α} {h : History α m (Tensor α)}
  {s y : Tensor α}

/-- The rows are vectors of length `n`. -/
structure Ruled (n : ℕ) (threshold : α) (h : History α m (Tensor α)) : Prop where
  threshold_eq : h.threshold = threshold
  rows : ∀ i, (h.slots.get i).s.shape = [n] ∧ (h.slots.get i).y.shape = [n]

/-- What becomes of an offer: the answer, and the ring after it. -/
inductive Offered (n : ℕ) (threshold : α) (h : History α m (Tensor α)) (s y : Tensor α) :
    Except (Fault α) Bool × History α m (Tensor α) → Prop
  | noProduct {f : Fault α} (hproduct : Space.product? s y = .error f) :
      Offered n threshold h s y (.error f, h)
  | refused {sy : α} (hproduct : Space.product? s y = .ok sy) (hfails : ¬ Passes threshold sy) :
      Offered n threshold h s y (.ok false, h)
  | misfit {sy : α} (hproduct : Space.product? s y = .ok sy) (hpasses : Passes threshold sy)
      (hshape : s.shape ≠ [n]) :
      Offered n threshold h s y (.error .lengths, h.put (h.slots.get h.claim.1))
  | zeroProduct {sy : α} {a b : Tensor α} (hproduct : Space.product? s y = .ok sy)
      (hpasses : Passes threshold sy) (ha : s.fill? [n] = some a) (hb : y.fill? [n] = some b)
      (hzero : (sy == 0) = true) :
      Offered n threshold h s y
        (.error .zeroDivision, h.put ⟨a, b, (h.slots.get h.claim.1).rho⟩)
  | stored {sy : α} {a b : Tensor α} (hproduct : Space.product? s y = .ok sy)
      (hpasses : Passes threshold sy) (ha : s.fill? [n] = some a) (hb : y.fill? [n] = some b) :
      Offered n threshold h s y (.ok true, h.put ⟨a, b, 1 / sy⟩)

namespace Ruled

theorem write?_step (hr : h.Ruled n threshold) (i : Fin m) (t : Tensor α) :
    Space.write? (h.slots.get i).s t = t.fill? [n] := by
  rw [← (hr.rows i).1]
  rfl

theorem write?_change (hr : h.Ruled n threshold) (i : Fin m) (t : Tensor α) :
    Space.write? (h.slots.get i).y t = t.fill? [n] := by
  rw [← (hr.rows i).2]
  rfl

theorem offered (hr : h.Ruled n threshold) (s y : Tensor α) :
    Offered n threshold h s y (h.push s y) := by
  cases hproduct : Space.product? s y with
  | error f =>
    have hpush : h.push s y = (.error f, h) := by rw [push, hproduct]
    exact hpush ▸ .noProduct hproduct
  | ok sy =>
    have hadmits : h.admits sy = true ↔ Passes threshold sy := by
      rw [← hr.threshold_eq]
      simp [admits, Passes]
    have hpush : h.push s y =
        if h.admits sy = true then h.store s y sy else (.ok false, h) := by
      rw [push, hproduct]
    rw [hpush]
    by_cases hpasses : Passes threshold sy
    · rw [if_pos (hadmits.mpr hpasses)]
      obtain ⟨k, hsk, hyk, -⟩ := Tensor.shape_of_product? hproduct
      by_cases hfit : Shape.join? [n] [k] = some [n]
      · have ha : s.fill? [n] = some (s.stretch [n]) := by rw [Tensor.fill?_vector hsk, if_pos hfit]
        have hb : y.fill? [n] = some (y.stretch [n]) := by rw [Tensor.fill?_vector hyk, if_pos hfit]
        rw [store_of_fit sy ((hr.write?_step _ s).trans ha) ((hr.write?_change _ y).trans hb)]
        split_ifs with hzero
        · exact .zeroProduct hproduct hpasses ha hb hzero
        · exact .stored hproduct hpasses ha hb
      · have hnone : s.fill? [n] = none := by rw [Tensor.fill?_vector hsk, if_neg hfit]
        rw [store_of_misfit sy ((hr.write?_step _ s).trans hnone)]
        refine .misfit hproduct hpasses fun hshape => ?_
        rw [Tensor.fill?_of_shape hshape] at hnone
        cases hnone
    · rw [if_neg (mt hadmits.mp hpasses)]
      exact .refused hproduct hpasses

omit [Scalar α] in
theorem put (hr : h.Ruled n threshold) {p : CurvaturePair α (Tensor α)} (hs : p.s.shape = [n])
    (hy : p.y.shape = [n]) : (h.put p).Ruled n threshold := by
  refine ⟨(threshold_put h p).trans hr.threshold_eq, fun i => ?_⟩
  simp only [History.put, get_eq_getElem, Fin.getElem_fin]
  by_cases hi : (h.claim.1 : ℕ) = i
  · simp only [hi, Vector.getElem_set_self]
    exact ⟨hs, hy⟩
  · rw [Vector.getElem_set_ne (h := hi)]
    exact hr.rows i

theorem empty (hm : 0 < m) :
    (History.empty n threshold hm : History α m (Tensor α)).Ruled n threshold := by
  refine ⟨rfl, fun i => ?_⟩
  simp only [History.empty, get_eq_getElem, Fin.getElem_fin, Vector.getElem_replicate]
  exact ⟨rfl, rfl⟩

theorem call (hr : h.Ruled n threshold) (c : Call (Tensor α)) : (h.call c).Ruled n threshold := by
  cases c with
  | clear => exact ⟨hr.threshold_eq, hr.rows⟩
  | push s y =>
    have hoffered := hr.offered s y
    rw [History.call]
    generalize h.push s y = after at hoffered ⊢
    cases hoffered with
    | noProduct => exact hr
    | refused => exact hr
    | misfit => exact hr.put (hr.rows _).1 (hr.rows _).2
    | zeroProduct _ _ ha hb => exact hr.put (Tensor.shape_of_fill? ha) (Tensor.shape_of_fill? hb)
    | stored _ _ ha hb => exact hr.put (Tensor.shape_of_fill? ha) (Tensor.shape_of_fill? hb)

end Ruled

/-- The product of the pair is positive, and its reciprocal is kept with it and positive, too. -/
def Inverted (p : CurvaturePair α (Tensor α)) : Prop :=
  0 < Space.inner p.s p.y ∧ p.rho = 1 / Space.inner p.s p.y ∧ 0 < p.rho

/-- What the call offers has the extents of the rows, unless it does not pass anyway. -/
def Call.Fits (n : ℕ) (threshold : α) : Call (Tensor α) → Prop
  | push s y => ∀ sy, Space.product? s y = .ok sy → Passes threshold sy → s.shape = [n]
  | clear => True

variable [Reciprocal α]

theorem pos_of_passes {sy : α} (h0 : ¬ threshold < 0) (hpasses : Passes threshold sy) : 0 < sy :=
  Reciprocal.pos_of_lt threshold sy h0 hpasses.2

namespace Ruled

theorem inverted_call (hr : h.Ruled n threshold) (h0 : ¬ threshold < 0) {c : Call (Tensor α)}
    (hc : c.Fits n threshold) (hi : ∀ p ∈ h.pairs, Inverted p) :
    ∀ p ∈ (h.call c).pairs, Inverted p := by
  cases c with
  | clear => exact nofun
  | push s y =>
    have hoffered := hr.offered s y
    rw [History.call]
    generalize h.push s y = after at hoffered ⊢
    cases hoffered with
    | noProduct => exact hi
    | refused => exact hi
    | misfit hproduct hpasses hshape => exact absurd (hc _ hproduct hpasses) hshape
    | zeroProduct _ hpasses _ _ hzero =>
      rw [Reciprocal.beq_zero _ (pos_of_passes h0 hpasses)] at hzero
      cases hzero
    | @stored sy a b hproduct hpasses ha hb =>
      have hs : s.shape = [n] := hc _ hproduct hpasses
      obtain ⟨k, hsk, hyk, hinner⟩ := Tensor.shape_of_product? hproduct
      have hy : y.shape = [n] := by rw [hyk, ← hsk, hs]
      obtain rfl : s = a := Option.some.inj ((Tensor.fill?_of_shape hs).symm.trans ha)
      obtain rfl : y = b := Option.some.inj ((Tensor.fill?_of_shape hy).symm.trans hb)
      have hpos := pos_of_passes h0 hpasses
      have hinner : Space.inner s y = sy := hinner
      intro p hp
      obtain hold | rfl := mem_pairs_put h hp
      · exact hi p hold
      · exact ⟨hinner ▸ hpos, by rw [hinner], Reciprocal.one_div_pos sy hpasses.1 hpos⟩

theorem inverted_calls (hr : h.Ruled n threshold) (h0 : ¬ threshold < 0)
    {cs : List (Call (Tensor α))} (hcs : ∀ c ∈ cs, c.Fits n threshold)
    (hi : ∀ p ∈ h.pairs, Inverted p) : ∀ p ∈ (h.calls cs).pairs, Inverted p := by
  induction cs generalizing h with
  | nil => exact hi
  | cons c cs ih =>
    rw [List.forall_mem_cons] at hcs
    exact ih (hr.call c) hcs.2 (hr.inverted_call h0 hcs.1 hi)

omit [Reciprocal α] in
theorem calls (hr : h.Ruled n threshold) (cs : List (Call (Tensor α))) :
    (h.calls cs).Ruled n threshold := by
  induction cs generalizing h with
  | nil => exact hr
  | cons c cs ih => exact ih (hr.call c)

end Ruled

/-- A push that fails either found no product and left the ring as it was, or it has put a pair
with a stale reciprocal behind the others. -/
theorem Ruled.push_error (hr : h.Ruled n threshold) {f : Fault α}
    (hf : (h.push s y).1 = .error f) :
    (Space.product? s y = .error f ∧ (h.push s y).2 = h) ∨
    ∃ sy p, Space.product? s y = .ok sy ∧ Passes threshold sy ∧
      (f = .lengths ∧ s.shape ≠ [n] ∨ f = .zeroDivision ∧ (sy == 0) = true ∧ threshold < 0) ∧
      p.rho = (h.slots.get h.claim.1).rho ∧ (h.push s y).2.pairs = (h.pairs ++ [p]).rtake m := by
  have hoffered := hr.offered s y
  generalize h.push s y = after at hoffered hf ⊢
  cases hoffered with
  | noProduct hproduct =>
    obtain rfl := Except.error.inj hf
    exact .inl ⟨hproduct, rfl⟩
  | refused => cases hf
  | misfit hproduct hpasses hshape =>
    obtain rfl := Except.error.inj hf
    exact .inr ⟨_, _, hproduct, hpasses, .inl ⟨rfl, hshape⟩, rfl, pairs_put h _⟩
  | @zeroProduct sy a b hproduct hpasses _ _ hzero =>
    obtain rfl := Except.error.inj hf
    refine .inr ⟨sy, ⟨a, b, _⟩, hproduct, hpasses, .inr ⟨rfl, hzero, ?_⟩, rfl, pairs_put h _⟩
    by_contra h0
    rw [Reciprocal.beq_zero _ (pos_of_passes h0 hpasses)] at hzero
    cases hzero
  | stored => cases hf

end Arrays

/-- What a ring of curvature pairs keeps of its promise that all products are positive, in any
arithmetic, for every threshold and for offers of any extents. If the threshold is not negative and
everything that passes it has the extents of the rows, then every pair has a positive product and
keeps the positive reciprocal of it, and a push that fails leaves the ring as it was. Without these
conditions a push may also fail after the pair was admitted, for its extents or for a product that
is zero; it has then put a pair with a stale reciprocal behind the others. -/
theorem inverted_of_offers {α : Type} [Scalar α] [Reciprocal α] {m n : ℤ} {threshold : α}
    {ring : History α m.toNat (Tensor α)} (hmake : make m n threshold = .ok ring)
    (cs : List (Call (Tensor α))) :
    let h := ring.calls cs
    (¬ threshold < 0 → (∀ c ∈ cs, c.Fits n.toNat threshold) → ∀ p ∈ h.pairs, Inverted p) ∧
    (¬ threshold < 0 → ∀ s y f, (Call.push s y).Fits n.toNat threshold →
      (h.push s y).1 = .error f → (h.push s y).2 = h) ∧
    ∀ s y f, (h.push s y).1 = .error f →
      (Space.product? s y = .error f ∧ (h.push s y).2 = h) ∨
      ∃ sy p, Space.product? s y = .ok sy ∧ Passes threshold sy ∧
        (f = .lengths ∧ s.shape ≠ [n.toNat] ∨
          f = .zeroDivision ∧ (sy == 0) = true ∧ threshold < 0) ∧
        p.rho = (h.slots.get h.claim.1).rho ∧
        (h.push s y).2.pairs = (h.pairs ++ [p]).rtake m.toNat := by
  intro h
  unfold make at hmake
  split_ifs at hmake with hm hn
  obtain rfl := Except.ok.inj hmake
  have hempty : (empty n.toNat threshold (by omega) :
      History α m.toNat (Tensor α)).Ruled n.toNat threshold := .empty _
  have hruled := hempty.calls cs
  refine ⟨fun h0 hcs => hempty.inverted_calls h0 hcs nofun, fun h0 s y f hfits hf => ?_,
    fun s y f hf => hruled.push_error hf⟩
  obtain ⟨-, hsame⟩ | ⟨sy, p, hproduct, hpasses, hcause, -⟩ := hruled.push_error hf
  · exact hsame
  · obtain ⟨-, hshape⟩ | ⟨-, -, hneg⟩ := hcause
    · exact absurd (hfits sy hproduct hpasses) hshape
    · exact absurd hneg h0

/-- A ring of two pairs of doubles that was told of three pairs, one of which it refused, and of
vectors of different lengths, which have no product. -/
theorem inverted_of_offers_doubles :
    let cs : List (Call (Tensor Float)) := [.push ⟨[2], #[1, 0]⟩ ⟨[2], #[2, 1]⟩,
      .push ⟨[2], #[0, 1]⟩ ⟨[2], #[1, -2]⟩, .push ⟨[2], #[1, 1]⟩ ⟨[2], #[3, 3]⟩]
    ∃ ring : History Float 2 (Tensor Float), make 2 2 0 = .ok ring ∧ (ring.calls cs).size = 2 ∧
      (∀ p ∈ (ring.calls cs).pairs, Inverted p) ∧
      ((ring.calls cs).push ⟨[2], #[1, 0]⟩ ⟨[3], #[1, 0, 0]⟩).1 = .error .lengths ∧
      ((ring.calls cs).push ⟨[2], #[1, 0]⟩ ⟨[3], #[1, 0, 0]⟩).2 = ring.calls cs := by
  intro cs
  have hmake : (make 2 2 0 : Except (Fault Float) (History Float 2 (Tensor Float))) =
      .ok (empty 2 0 two_pos) := rfl
  obtain ⟨hinverted, hpush, -⟩ := inverted_of_offers (m := 2) hmake cs
  have h0 : ¬ (0 : Float) < 0 := by decide +kernel
  have hfits : ∀ c ∈ cs, c.Fits 2 0 := by
    simp only [cs, List.forall_mem_cons]
    exact ⟨fun _ _ _ => rfl, fun _ _ _ => rfl, fun _ _ _ => rfl, nofun⟩
  have hf : (((empty 2 0 two_pos : History Float 2 (Tensor Float)).calls cs).push ⟨[2], #[1, 0]⟩
      ⟨[3], #[1, 0, 0]⟩).1 = .error .lengths := by decide +kernel
  exact ⟨_, hmake, by decide +kernel, hinverted h0 hfits, hf,
    hpush h0 _ _ _ (fun _ _ _ => rfl) hf⟩

/-- Doubles that break the promise: three entries offered to rows of two, which fail and leave a
pair of zeros in use; a product of zero above a negative threshold, which fails and leaves a pair
without a reciprocal; a negative product above it, which is stored; and a single entry that is
stretched over two, so that the pair in the ring has another product than the one offered. -/
theorem inverted_of_offers_broken :
    ∃ ring : History Float 2 (Tensor Float), make 2 2 defaultThreshold = .ok ring ∧
    ∃ low : History Float 2 (Tensor Float), make 2 1 (-1) = .ok low ∧
      let long : Tensor Float := ⟨[3], #[1, 1, 1]⟩
      let one : Tensor Float := ⟨[1], #[1]⟩
      (ring.push long long).1 = .error .lengths ∧ (ring.push long long).2.size = 1 ∧
      (ring.push long long).2.pairs = [⟨⟨[2], #[0, 0]⟩, ⟨[2], #[0, 0]⟩, 0⟩] ∧
      (low.push one ⟨[1], #[0]⟩).1 = .error .zeroDivision ∧
      (low.push one ⟨[1], #[0]⟩).2.pairs = [⟨one, ⟨[1], #[0]⟩, 0⟩] ∧
      (low.push one ⟨[1], #[-0.5]⟩).1 = .ok true ∧
      (low.push one ⟨[1], #[-0.5]⟩).2.pairs = [⟨one, ⟨[1], #[-0.5]⟩, -2⟩] ∧
      (ring.push one one).1 = .ok true ∧
      (ring.push one one).2.pairs = [⟨⟨[2], #[1, 1]⟩, ⟨[2], #[1, 1]⟩, 1⟩] := by
  refine ⟨_, rfl, _, rfl, ?_⟩
  decide +kernel

end History

end Downhill
