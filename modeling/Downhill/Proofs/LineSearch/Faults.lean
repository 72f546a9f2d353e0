import Downhill.Proofs.LineSearch.Family
import Downhill.Proofs.Problem.Responsive

/-! The faults of searches. A search raises a fault of its own where it is asked to go along a
direction that does not descend, or to begin with a step that is not positive and finite. Otherwise
a problem that answers every question leaves it only numerical faults, which end a run with a
status. -/
namespace Downhill
variable {K M : Type} [ExactField K] {n : ℕ}

open Exact

section Parts
variable {α : Type} [Scalar α] {f : Fault α}

theorem isNumerical_of_checkScalar {what : Quantity α} {v : α}
    (h : checkScalar what v = .error f) : f.isNumerical = true := by
  unfold checkScalar at h
  split_ifs at h
  cases h
  rfl

omit [Scalar α] in
theorem isNumerical_of_checkArray {what : Quantity α} {finite : Bool}
    (h : checkArray what finite = .error f) : f.isNumerical = true := by
  unfold checkArray at h
  split_ifs at h
  cases h
  rfl

variable {r : Ray α (Vector α n)} {default : α} {asked : Option α}

theorem Ray.prepare_of_not_descent (h : ¬ Space.inner r.start.gradient r.direction < 0) :
    r.prepare default asked = .error (.notDescent (Space.inner r.start.gradient r.direction)) := by
  simp only [prepare, slope, descentSlope, Space.dot?_vector, Space.inner_vector, bind,
    Except.bind] at h ⊢
  rw [if_neg h]
  rfl

/-- The preparations succeed along a direction that descends, with a first step that is positive
and finite; otherwise their fault is not a numerical one. -/
theorem Ray.prepare_cases (r : Ray α (Vector α n)) (default : α) (asked : Option α) :
    (Space.inner r.start.gradient r.direction < 0 ∧ 0 < asked.getD default ∧
      Scalar.isFinite (asked.getD default) = true ∧
      r.prepare default asked =
        .ok (Space.inner r.start.gradient r.direction, asked.getD default)) ∨
    ∃ f, r.prepare default asked = .error f ∧ f.isNumerical = false ∧
      ¬ (Space.inner r.start.gradient r.direction < 0 ∧ 0 < asked.getD default ∧
        Scalar.isFinite (asked.getD default) = true) := by
  by_cases hneg : Space.inner r.start.gradient r.direction < 0
  · have hslope : r.slope = .ok (Space.inner r.start.gradient r.direction) := if_pos hneg
    by_cases hpos : 0 < asked.getD default ∧ Scalar.isFinite (asked.getD default) = true
    · have hstep : startingStep default asked = .ok (asked.getD default) := if_pos hpos
      refine .inl ⟨hneg, hpos.1, hpos.2, ?_⟩
      rw [prepare, hslope, hstep]
      rfl
    · have hstep : startingStep default asked = .error (.initialStep (asked.getD default)) :=
        if_neg hpos
      refine .inr ⟨.initialStep (asked.getD default), ?_, rfl, fun h => hpos h.2⟩
      rw [prepare, hslope, hstep]
      rfl
  · exact .inr ⟨.notDescent _, prepare_of_not_descent hneg, rfl, fun h => hneg h.1⟩

variable {o : Oracle α (Vector α n) M} (ho : o.Responds)
include ho

theorem mild_trialValue (x : Vector α n) (alpha : α) :
    Mild (trialValue o x alpha) fun _ => True :=
  .bind (.of_replies (ho.value x)) fun _ _ => .bind (R := fun _ => True)
    (Eval.mild_ofExcept (fun _ _ => trivial) fun _ h => isNumerical_of_checkScalar h)
    fun _ _ => .pure trivial

theorem mild_trialGradient (x : Vector α n) (alpha : α) :
    Mild (trialGradient o x alpha) fun _ => True :=
  .bind (.of_replies (ho.gradient x)) fun _ _ => .bind (R := fun _ => True)
    (Eval.mild_ofExcept (fun _ _ => trivial) fun _ h => isNumerical_of_checkArray h)
    fun _ _ => .pure trivial

end Parts

namespace Interpolation

/-- Exact products do not leave the range. -/
theorem square_eq (a : Exact K) : square a = .ok (a * a) := by
  cases a <;> rfl

theorem cube_eq (a : Exact K) : cube a = .ok (a * a * a) := by
  cases a <;> rfl

variable (f0 slope a0 fa0 alpha f : Exact K)

theorem exists_quadraticMinimizer : ∃ t, quadraticMinimizer f0 slope alpha f = .ok t := by
  simp only [quadraticMinimizer, square_eq]
  split_ifs
  exacts [⟨_, rfl⟩, ⟨_, rfl⟩]

theorem exists_cubicMinimizer : ∃ t, cubicMinimizer f0 slope a0 fa0 alpha f = .ok t := by
  simp only [cubicMinimizer, square_eq, cube_eq, bind, Except.bind]
  split_ifs
  exacts [⟨_, rfl⟩, ⟨_, rfl⟩]

end Interpolation

theorem CubicBacktracking.exists_shrink (s : CubicBacktracking (Exact K)) (f0 slope f : Exact K)
    (t : State (Exact K)) : ∃ a, s.shrink f0 slope t f = .ok a := by
  unfold shrink
  cases t.previous with
  | none =>
    obtain ⟨m, hm⟩ := Interpolation.exists_quadraticMinimizer f0 slope t.alpha f
    exact ⟨_, by simp only [hm]; rfl⟩
  | some p =>
    obtain ⟨m, hm⟩ := Interpolation.exists_cubicMinimizer f0 slope p.1 p.2 t.alpha f
    exact ⟨_, by simp only [hm]; rfl⟩


section Searches
variable {o : Oracle (Exact K) (Vector (Exact K) n) M} (ho : o.Responds)
  (r : Ray (Exact K) (Vector (Exact K) n)) (slope : Exact K)
include ho

theorem Backtracking.mild_attempt (s : Backtracking (Exact K)) (t : State (Exact K)) :
    Mild (s.attempt o r slope t) fun _ => True := by
  refine .bind (mild_trialValue ho _ _) fun f _ => .ite (fun _ => ?_) fun _ => ?_
  · exact .bind (mild_trialGradient ho _ _) fun _ _ => .pure trivial
  · exact .ite (fun _ => .pure trivial) fun _ => .pure trivial

theorem CubicBacktracking.mild_attempt (s : CubicBacktracking (Exact K)) (t : State (Exact K)) :
    Mild (s.attempt o r slope t) fun _ => True := by
  refine .bind (mild_trialValue ho _ _) fun f _ => .ite (fun _ => ?_) fun _ => ?_
  · exact .bind (mild_trialGradient ho _ _) fun _ _ => .pure trivial
  · obtain ⟨a, ha⟩ := s.exists_shrink r.start.value slope f t
    refine .bind (R := fun _ => True) (.of_replies (Eval.replies_ofExcept ha trivial)) fun _ _ => ?_
    exact .ite (fun _ => .pure trivial) fun _ => .pure trivial

theorem Bisection.mild_attempt (s : Bisection (Exact K))
    (t : State (Exact K) (Vector (Exact K) n)) : Mild (s.attempt o r slope t) fun _ => True := by
  refine .bind (mild_trialValue ho _ _) fun f _ => .ite (fun _ => ?_) fun _ => .pure trivial
  refine .bind (mild_trialGradient ho _ _) fun g _ => .ite (fun _ => .pure trivial) fun _ => ?_
  refine .bind (.of_replies (Eval.replies_ofExcept (Space.dot?_vector g r.direction) trivial))
    (R := fun _ => True) fun _ _ => ?_
  exact .ite (fun _ => .pure trivial) fun _ => .pure trivial

theorem MoreThuente.mild_attempt (s : MoreThuente (Exact K))
    (st : State (Exact K) (Vector (Exact K) n)) : Mild (s.attempt o r slope st) fun _ => True := by
  refine .bind (.of_replies (ho.value _)) fun f _ => ?_
  refine .bind (.of_replies (ho.gradient _)) fun g _ => ?_
  refine .bind (R := fun _ => True)
    (Eval.mild_ofExcept (fun _ _ => trivial) fun _ h => isNumerical_of_checkScalar h) fun _ _ => ?_
  refine .bind (R := fun _ => True)
    (Eval.mild_ofExcept (fun _ _ => trivial) fun _ h => isNumerical_of_checkArray h) fun _ _ => ?_
  exact .bind (R := fun _ => True) (.of_replies (Eval.replies_ofExcept rfl trivial))
    fun _ _ => .pure trivial

end Searches

namespace LineSearch

/-- The first step of a search if none is asked for; the bare contract has none. -/
def firstStep? {α : Type} : LineSearch α → Option α
  | base => none
  | backtracking s => some s.alpha0
  | cubic s => some s.alpha0
  | bisection s => some s.alpha0
  | moreThuente s => some s.alpha0

variable {o : Oracle (Exact K) (Vector (Exact K) n) M} {s : LineSearch (Exact K)} {first : Exact K}
  {r : Ray (Exact K) (Vector (Exact K) n)} {asked : Option (Exact K)}

/-- Along a direction that descends, from a first step that is positive and finite, the faults of a
search are numerical. -/
theorem mild_search (ho : o.Responds) (hs : s.firstStep? = some first)
    (hneg : Space.inner r.start.gradient r.direction < 0) (hpos : 0 < asked.getD first)
    (hfin : Scalar.isFinite (asked.getD first) = true) :
    Mild (s.search o r asked) fun _ => True := by
  have hprepare : r.prepare first asked =
      .ok (Space.inner r.start.gradient r.direction, asked.getD first) := by
    obtain ⟨-, -, -, h⟩ | ⟨-, -, -, h⟩ := r.prepare_cases first asked
    · exact h
    · exact absurd ⟨hneg, hpos, hfin⟩ h
  have hready : Mild (Eval.ofExcept (r.prepare first asked) : Eval _ (Vector (Exact K) n) _)
      fun _ => True := .of_replies (Eval.replies_ofExcept hprepare trivial)
  cases s with
  | base => cases hs
  | backtracking s =>
    cases hs
    refine .bind hready fun p _ => .loop (s.mild_attempt ho r p.1) _ _ fun u => ?_
    cases u <;> exact .pure trivial
  | cubic s =>
    cases hs
    refine .bind hready fun p _ => .loop (s.mild_attempt ho r p.1) _ _ fun u => ?_
    cases u <;> exact .pure trivial
  | bisection s =>
    cases hs
    refine .bind hready fun p _ => .loop (s.mild_attempt ho r p.1) _ _ fun u => ?_
    cases u <;> exact .pure trivial
  | moreThuente s =>
    cases hs
    refine .bind hready fun p _ => .loop (s.mild_attempt ho r p.1) _ _ fun u => ?_
    cases u <;> exact .pure trivial

omit [ExactField K] in
/-- A search that cannot be prepared raises the fault of its preparations. -/
theorem perform_search_of_error {α V : Type} [Scalar α] [Space α V] {o : Oracle α V M}
    {s : LineSearch α} {first : α} {r : Ray α V} {asked : Option α} {f : Fault α}
    (hs : s.firstStep? = some first) (h : r.prepare first asked = .error f) (l : Ledger α V) :
    (s.search o r asked).perform l = (.error f, l) := by
  cases s <;> cases hs <;>
    simp only [search, Backtracking.search, CubicBacktracking.search, Bisection.search,
      MoreThuente.search, Eval.perform_bind, h, Eval.perform_ofExcept]

omit [ExactField K] in
/-- A search that comes to an answer was given a direction with a slope. -/
theorem exists_slope {α V : Type} [Scalar α] [Space α V] {o : Oracle α V M} {s : LineSearch α}
    {r : Ray α V} {asked : Option α} {l : Ledger α V} {step : Step α V}
    (h : ((s.search o r asked).run.run l).1 = .ok step) : ∃ a, r.slope = .ok a := by
  cases hfirst : s.firstStep? with
  | none => cases s <;> cases hfirst; cases h
  | some first =>
    rcases hprepare : r.prepare first asked with f | ⟨slope, alpha⟩
    · cases h.symm.trans (congrArg Prod.fst (perform_search_of_error hfirst hprepare l))
    · obtain ⟨a, hslope, -⟩ := bind_eq_ok_iff.mp hprepare
      exact ⟨a, hslope⟩

end LineSearch

end Downhill
