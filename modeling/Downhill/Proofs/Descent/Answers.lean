import Downhill.Proofs.Descent.Protocol
import Downhill.Proofs.LineSearch.Faults

/-! How the calls of a run with an outcome were answered. A fault that is not numerical would have
ended the call, so there was none; and a search that did not raise one was given a direction that
descends and a positive first step. -/
namespace Downhill
variable {σ ρ α V M : Type} [Scalar α] [Space α V]

omit [Scalar α] in
theorem Phase.along_of_fault {p : Phase α V} {before : List (Event α V)} {e : Event α V}
    {f : Fault α} (h : e.answer = .error f) :
    p.along (before ++ [e]) = .broken (p.along before).iterate f := by
  rw [along_append]
  simp only [along, List.foldl_cons, List.foldl_nil, answered, h]

namespace Descent
variable {d : Descent σ ρ α V M} {o : Oracle α V M} {start : Iterate α V}
  {events : List (Event α V)}

/-- The faults of the calls of a run that came to an end. -/
theorem Ending.isNumerical {path : List (Iterate α V)} {stop : Stop α V}
    (hending : d.Ending start path ((Phase.ready start).along events) stop)
    (hobeys : (Phase.ready start).Obeys events) {e : Event α V} (he : e ∈ events) {f : Fault α}
    (hf : e.answer = .error f) : f.isNumerical = true := by
  obtain ⟨before, rest, rfl⟩ := List.append_of_mem he
  obtain rfl := Phase.eq_nil_of_fault hobeys hf
  rw [Phase.along_of_fault hf] at hending
  cases hending with
  | closed _ _ hclosing =>
    cases f with
    | numerical => rfl
    | _ => cases hclosing

omit [Scalar α] [Space α V] in
/-- Every event is answered by the machine in a state to which the events before it have led. -/
theorem Transcript.exists_before {begun t : Flow σ ρ α V × Ledger α V}
    (h : d.Transcript o begun events t) {before rest : List (Event α V)} {e : Event α V}
    (he : events = before ++ e :: rest) : ∃ f l u, d.Transcript o begun before (f, l) ∧
      (d.serve o e.query).perform { f with calls := f.calls.push e.call } l = (e.answer, u) := by
  induction h generalizing rest with
  | begin => exact absurd he.symm (List.append_ne_nil_of_right_ne_nil _ (List.cons_ne_nil _ _))
  | remark h r ih => exact ih he
  | accept h y ih => exact ih he
  | @call events f l h e' u hu ih =>
    rcases List.eq_nil_or_concat rest with rfl | ⟨rest, last, rfl⟩
    · obtain ⟨rfl, hlast⟩ := List.append_inj' he rfl
      obtain rfl := List.singleton_inj.mp hlast
      exact ⟨f, l, u, h, hu⟩
    · rw [List.concat_eq_append, ← List.cons_append, ← List.append_assoc] at he
      exact ih (List.append_inj' he rfl).1

omit [Scalar α] [Space α V] in
/-- A transcript can be cut after any of its events. -/
theorem Transcript.exists_of_append {begun t : Flow σ ρ α V × Ledger α V}
    {before rest : List (Event α V)} (h : d.Transcript o begun (before ++ rest) t) :
    ∃ f l, d.Transcript o begun before (f, l) := by
  cases rest with
  | nil =>
    rw [List.append_nil] at h
    exact ⟨t.1, t.2, h⟩
  | cons e rest =>
    obtain ⟨f, l, -, hbefore, -⟩ := h.exists_before rfl
    exact ⟨f, l, hbefore⟩

omit [Scalar α] [Space α V] in
theorem Transcript.exists_answer {begun t : Flow σ ρ α V × Ledger α V}
    (h : d.Transcript o begun events t) {e : Event α V} (he : e ∈ events) :
    ∃ f l, ((d.serve o e.query).perform f l).1 = e.answer := by
  obtain ⟨before, rest, hevents⟩ := List.append_of_mem he
  obtain ⟨f, l, u, -, hu⟩ := h.exists_before hevents
  exact ⟨_, l, congrArg Prod.fst hu⟩

/-- A search that raised no fault of its own was given a direction that descends and, where one was
asked for, a first step that is positive and finite. -/
theorem Transcript.search_proper {n : ℕ} {d : Descent σ Unit α (Vector α n) M}
    {o : Oracle α (Vector α n) M} {events : List (Event α (Vector α n))} {s : LineSearch α}
    {first : α} {begun t : Flow σ Unit α (Vector α n) × Ledger α (Vector α n)}
    (h : d.Transcript o begun events t) (hd : d.search = s.machine)
    (hs : s.firstStep? = some first) {ray : Ray α (Vector α n)} {asked : Option α}
    {answer : Except (Fault α) (Step α (Vector α n))} (he : ⟨.search ray asked, answer⟩ ∈ events)
    (hfault : ∀ f, answer = .error f → f.isNumerical = true) :
    Space.inner ray.start.gradient ray.direction < 0 ∧
      ∀ a, asked = some a → 0 < a ∧ Scalar.isFinite a = true := by
  obtain ⟨f, l, hanswer⟩ := h.exists_answer he
  obtain ⟨hneg, hpos, hfin, -⟩ | ⟨e, hprepare, hnumerical, -⟩ := ray.prepare_cases first asked
  · refine ⟨hneg, ?_⟩
    rintro a rfl
    exact ⟨hpos, hfin⟩
  · have hsearch : ((d.serve o (.search ray asked)).perform f l).1 = .error e := by
      rw [serve, hd]
      exact congrArg Prod.fst (LineSearch.perform_search_of_error hs hprepare l)
    rw [hfault e (hanswer.symm.trans hsearch)] at hnumerical
    cases hnumerical

end Descent

end Downhill
