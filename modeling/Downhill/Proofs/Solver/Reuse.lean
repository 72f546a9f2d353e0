import Downhill.Problem.Arrays
import Downhill.Proofs.Descent.Lockstep
import Downhill.Proofs.Solver.Equipped
import Downhill.Proofs.Tensor.Extents
import Downhill.Solver.Basic

/-! Strategies and solvers that are used again. A run begins anew whatever its strategy has been
through, and a call of a solver is a call of the function of its method, with a strategy of its own;
so nothing that was done before shows in an answer. A call that fails leaves the last result and the
point of the caller as they are. -/
namespace Downhill

section Strategies
variable {σ ρ α V M : Type}

/-- The same record, but for the state in which the strategy is left. -/
def Record.leaving (state : σ) (r : Record σ ρ α V) : Record σ ρ α V :=
  { r with flow := { r.flow with strategy := state } }

theorem Flow.Matches.eq_leaving {S : σ → σ → Prop} {f f' : Flow σ ρ α V} (h : Flow.Matches S f f') :
    f = { f' with strategy := f.strategy } := by
  obtain ⟨_, _, _, _⟩ := f
  obtain ⟨-, rfl, rfl, rfl⟩ := h
  rfl

variable [Scalar α] [Space α V]

theorem Descent.close_leaving (d : Descent σ ρ α V M) (x : V) (r : Except (Fault α) (Stop α V))
    (state : σ) (flow : Flow σ ρ α V) (l : Ledger α V) :
    d.close x r { flow with strategy := state } l = (d.close x r flow l).leaving state := by
  cases r <;> rfl

variable [Curved α V M]

/-- Two runs of one plan on one problem keep in step. -/
theorem Plan.lockstep_again (plan : Plan α) (p : Problem α V M) (guide : Searcher α V M)
    (config : Config α) (n : ℕ) :
    let d := plan.descent p guide config
    d.Lockstep p (d.work n) (d.work n) plan.SameCourse Eq :=
  ⟨rfl, fun _ => .refl _, plan.lockstep (fun _ => .refl _) fun _ _ => .refl _,
    guide.search.lockstep_refl _⟩

/-- A run does not depend on the state in which it finds its strategy. -/
theorem Plan.exists_leaving (plan : Plan α) (p : Problem α V M) (guide : Searcher α V M)
    (config : Config α) (x : V) (used fresh : (plan.strategist : Strategist α V M).State)
    (search : guide.State) :
    let d := plan.descent p guide config
    ∃ left, d.runFrom x used search = (d.runFrom x fresh search).map (Record.leaving left) := by
  intro d
  rcases haccept : p.accept x with f | y
  · refine ⟨used, ?_⟩
    have hrefused := fun st => Descent.runFrom_of_fault (d := d) st search haccept
    rw [hrefused, hrefused]
    rfl
  obtain rfl := Descent.eq_of_accept haccept
  obtain ⟨r, flow, flow', l, _, hrun, hrun', hflow, rfl⟩ := Descent.exists_close_on (x := y)
    (plan.lockstep_again p guide config _) (fun _ => .refl _) (fun _ => .refl _) rfl used fresh
    search
  have hfresh : d.run y fresh search = d.close y r flow' l := hrun'
  have hleft : d.run y used search = (d.run y fresh search).leaving flow.strategy :=
    calc d.run y used search = d.close y r flow l := hrun
      _ = d.close y r { flow' with strategy := flow.strategy } l := by rw [hflow.eq_leaving]
      _ = (d.close y r flow' l).leaving flow.strategy := Descent.close_leaving d y r _ flow' l
      _ = (d.run y fresh search).leaving flow.strategy := by rw [hfresh]
  refine ⟨flow.strategy, ?_⟩
  rw [(Descent.runFrom_eq_ok_iff used search).mpr ⟨haccept, rfl⟩,
    (Descent.runFrom_eq_ok_iff fresh search).mpr ⟨haccept, rfl⟩, hleft]
  rfl

end Strategies

section Functions
variable {α V M : Type} [Scalar α] [Space α V] [Curved α V M]

/-- The function that calls a method. Its caller does not choose the growth and the number of shifts
of Newton directions, nor the threshold of curvature pairs, which are standard. -/
inductive Method.Function :
    Method α → (Choices α V M → Problem α V M → V → Report α V) → Prop
  | newton (beta : α) : Function (.newton { Newton.standard with beta }) (newtonMethod beta)
  | conjugateGradient (rule : String) (interval : Option ℤ) :
      Function (.conjugateGradient rule interval) (nonlinearCG rule interval)
  | quasiNewton (memory : ℤ) :
      Function (.quasiNewton { QuasiNewton.standard with memory }) (lbfgs memory)

/-- The settings of a solver as the choices of a caller. -/
def Solver.choices (s : Solver α V) : Choices α V M :=
  ⟨s.maxIters, s.tolerance, s.lineSearch.map Guide.searcher, s.history⟩

theorem Method.Function.eq_minimize {m : Method α}
    {f : Choices α V M → Problem α V M → V → Report α V} (h : m.Function f) : f = m.minimize := by
  cases h <;> rfl

end Functions

/-- The same search before it was asked for anything. -/
def Guide.anew {α V : Type} : Guide α V → Guide α V
  | scripted verdicts _ => scripted verdicts 0
  | g => g

/-- A call of a solver. -/
inductive Use (α V M : Type) where
  | run (p : Problem α V M) (x : V)
  | minimize (p : Problem α V M) (round? : Option (V → V)) (x : V)

namespace Solver
variable {α V M : Type} [Scalar α]

/-- The solver before it was called. -/
def anew (s : Solver α V) : Solver α V :=
  { s with lineSearch := s.lineSearch.map Guide.anew, result := none }

variable [Space α V] [Curved α V M] {s : Solver α V}
  {f : Choices α V M → Problem α V M → V → Report α V} {p : Problem α V M} {x : V}

/-- What a call leaves of a solver. -/
def afterUse (s : Solver α V) : Use α V M → Solver α V
  | .run p x => (s.run p x).2
  | .minimize p round? x => (s.minimize p round? x).2.2.2

def after (s : Solver α V) (uses : List (Use α V M)) : Solver α V := uses.foldl afterUse s

omit [Space α V] in
theorem exists_of_discard {ε β : Type} {e : Except ε β} {u : Unit} (h : discard e = .ok u) :
    ∃ b, e = .ok b := by
  cases e with
  | ok b => exact ⟨b, rfl⟩
  | error e => cases h

/-- A solver that was accepted has what its runs need, and so has a call of its function. -/
theorem exists_equip (hf : s.method.Function f) (hcheck : s.check = .ok ()) :
    ∃ config plan default, s.equip = .ok (default, plan, config) ∧
      s.method.equip (s.choices : Choices α V M) = .ok (config, plan, default) := by
  obtain ⟨maxIters, tolerance, guide, history, method, result⟩ := s
  obtain ⟨_, hconfig, hplan⟩ := bind_eq_ok_iff.mp hcheck
  obtain ⟨config, hconfig⟩ := exists_of_discard hconfig
  have hmake : Config.make maxIters tolerance history = .ok config := hconfig
  have hparts : (∃ plan, method.plan = .ok plan) ∧
      ∃ default, method.defaultSearch = .ok default := by
    cases hf <;> exact ⟨exists_of_discard hplan, _, rfl⟩
  obtain ⟨⟨plan, hplan⟩, default, hdefault⟩ := hparts
  refine ⟨config, plan, default, ?_, ?_⟩
  · simp only [equip, hdefault, hplan, hconfig]
    rfl
  · simp only [Method.equip, choices, hmake, hplan, hdefault]
    rfl

/-- A call of a solver is a call of the function of its method. -/
theorem report_eq (hf : s.method.Function f) (hcheck : s.check = .ok ())
    (hstray : s.asksStray = false) : (s.report p x).1 = f s.choices p x := by
  obtain ⟨config, plan, default, hequip, hcall⟩ := exists_equip hf hcheck
  rw [hf.eq_minimize, Method.minimize, hcall]
  obtain ⟨maxIters, tolerance, guide, history, method, result⟩ := s
  cases guide <;> simp only [report, hstray, hequip, Bool.false_eq_true, if_false] <;> rfl

variable (s p x)

theorem result_run_of_fault {e : Fault α} (h : (s.report p x).1.result = .error e) :
    (s.run p x).2.result = s.result := by
  change (keep { s with lineSearch := (s.report p x).2 } (s.report p x).1).result = s.result
  rw [keep_of_fault _ h]

theorem result_run_of_ok {r : Outcome α V} (h : (s.report p x).1.result = .ok r) :
    (s.run p x).2.result = some r := by
  change (keep { s with lineSearch := (s.report p x).2 } (s.report p x).1).result = some r
  rw [keep, h]

theorem anew_search_report :
    (s.report p x).2.map Guide.anew = s.lineSearch.map Guide.anew := by
  unfold report
  split_ifs
  · rfl
  · split
    · rfl
    · rename_i h
      rw [h]
    · rename_i g _ h
      rw [h]
      cases g <;> rfl

omit [Scalar α] [Space α V] in
theorem anew_keep (r : Report α V) : (s.keep r).anew = s.anew := by
  unfold keep
  split <;> rfl

theorem anew_run : (s.run p x).2.anew = s.anew := by
  change (keep { s with lineSearch := (s.report p x).2 } (s.report p x).1).anew = s.anew
  rw [anew_keep, anew, anew_search_report]
  rfl

theorem minimize_snd (round : V → V) : (s.minimize p (some round) x).2.2 = s.run p x := by
  simp only [minimize]
  split
  · rfl
  · split <;> rfl

theorem anew_after (uses : List (Use α V M)) : (s.after uses).anew = s.anew := by
  induction uses generalizing s with
  | nil => rfl
  | cons use uses ih =>
    refine (ih (s.afterUse use)).trans ?_
    cases use with
    | run p x => exact s.anew_run p x
    | minimize p round? x =>
      cases round? with
      | none => rfl
      | some round =>
        exact (congrArg (fun r => r.2.anew) (s.minimize_snd p x round)).trans (s.anew_run p x)

variable {s p x}

theorem minimize_of_fault {e : Fault α} (round : V → V) (h : (s.run p x).1.result = .error e) :
    s.minimize p (some round) x = (.error e, x, s.run p x) := by
  simp only [minimize, h]

theorem minimize_of_write {r : Outcome α V} {y : V} {round : V → V}
    (h : (s.run p x).1.result = .ok r) (hwrite : Space.write? x (round r.point) = some y) :
    s.minimize p (some round) x = (.ok r.status, y, s.run p x) := by
  simp only [minimize, h, hwrite]

theorem minimize_of_no_write {r : Outcome α V} {round : V → V} (h : (s.run p x).1.result = .ok r)
    (hwrite : Space.write? x (round r.point) = none) :
    s.minimize p (some round) x = (.error .lengths, x, s.run p x) := by
  simp only [minimize, h, hwrite]

/-- A solver does what the function `f` does, on a problem from a start: `run` returns its report
and keeps its outcome; `minimize` returns its status and writes its point over the start. What fails
leaves the start and the last outcome, unless the point that was reached does not go into the
start. -/
structure Mirrors (s : Solver α V) (f : Choices α V M → Problem α V M → V → Report α V)
    (p : Problem α V M) (x : V) : Prop where
  run : (s.run p x).1 = f s.choices p x
  kept : ∀ r, (f s.choices p x).result = .ok r → (s.run p x).2.result = some r
  unchanged : ∀ e, (f s.choices p x).result = .error e → (s.run p x).2.result = s.result
  minimize : ∀ round, (s.minimize p (some round) x).2.2 = (f s.choices p x, (s.run p x).2)
  returned : ∀ round? status, (s.minimize p round? x).1 = .ok status → ∃ round r,
    round? = some round ∧ (f s.choices p x).result = .ok r ∧ status = r.status ∧
      Space.write? x (round r.point) = some (s.minimize p round? x).2.1
  raised : ∀ round? e, (s.minimize p round? x).1 = .error e →
    (s.minimize p round? x).2.1 = x ∧ ((s.minimize p round? x).2.2.2.result = s.result ∨
      ∃ round r, round? = some round ∧ (f s.choices p x).result = .ok r ∧
        Space.write? x (round r.point) = none)

theorem mirrors (hf : s.method.Function f) (hcheck : s.check = .ok ())
    (hstray : s.asksStray = false) (p : Problem α V M) (x : V) : s.Mirrors f p x := by
  have hrun : (s.run p x).1 = f s.choices p x := report_eq hf hcheck hstray
  have hkept : ∀ r, (f s.choices p x).result = .ok r → (s.run p x).2.result = some r := fun r hr =>
    s.result_run_of_ok p x (hrun ▸ hr)
  have hunchanged : ∀ e, (f s.choices p x).result = .error e → (s.run p x).2.result = s.result :=
    fun e he => s.result_run_of_fault p x (hrun ▸ he)
  refine ⟨hrun, hkept, hunchanged, fun round => ?_, ?_, ?_⟩
  · rw [minimize_snd, ← hrun]
  · rintro (_ | round) status hstatus
    · cases hstatus
    rcases hresult : (f s.choices p x).result with e | r
    · rw [minimize_of_fault round (hrun ▸ hresult)] at hstatus
      cases hstatus
    rcases hwrite : Space.write? x (round r.point) with _ | y
    · rw [minimize_of_no_write (hrun ▸ hresult) hwrite] at hstatus
      cases hstatus
    rw [minimize_of_write (hrun ▸ hresult) hwrite] at hstatus ⊢
    cases hstatus
    exact ⟨round, r, rfl, rfl, rfl, hwrite⟩
  · rintro (_ | round) e he
    · exact ⟨rfl, .inl rfl⟩
    rcases hresult : (f s.choices p x).result with e' | r
    · rw [minimize_of_fault round (hrun ▸ hresult)]
      exact ⟨rfl, .inl (hunchanged e' hresult)⟩
    rcases hwrite : Space.write? x (round r.point) with _ | y
    · rw [minimize_of_no_write (hrun ▸ hresult) hwrite]
      exact ⟨rfl, .inr ⟨round, r, rfl, rfl, hwrite⟩⟩
    · rw [minimize_of_write (hrun ▸ hresult) hwrite] at he
      cases he

omit [Scalar α] [Space α V] [Curved α V M] in
theorem asksStray_anew (s : Solver α V) : s.anew.asksStray = s.asksStray := by
  obtain ⟨maxIters, tolerance, guide, history, method, result⟩ := s
  rcases guide with _ | g
  · rfl
  · cases g <;> rfl

/-- The search is the default of the method or one of the library. -/
def OwnSearch (s : Solver α V) : Prop := ∀ g, s.lineSearch = some g → ∃ l, g = .search l

omit [Curved α V M] in
theorem choices_of_anew {s s' : Solver α V} (h : s'.anew = s.anew) (hs : s.OwnSearch) :
    (s'.choices : Choices α V M) = s.choices := by
  obtain ⟨maxIters, tolerance, guide, history, method, result⟩ := s
  obtain ⟨maxIters', tolerance', guide', history', method', result'⟩ := s'
  simp only [anew, Solver.mk.injEq] at h
  obtain ⟨rfl, rfl, hguide, rfl, rfl, -⟩ := h
  have hsame : guide' = guide := by
    rcases guide with _ | g <;> rcases guide' with _ | g'
    · rfl
    · cases hguide
    · cases hguide
    · obtain ⟨l, rfl⟩ := hs g rfl
      cases g' <;> simp_all [Guide.anew]
  simp only [choices, hsame]

end Solver

theorem Problem.size_of_accept {α M : Type} [Scalar α] {p : Problem α (Tensor α) M} {x : Tensor α}
    (h : p.accept x = .ok x) (hx : x.entries.size = x.shape.volume) :
    x.shape = [x.entries.size] := by
  have hvector : ∃ k, x.shape = [k] := by
    simp only [accept, Space.accept, show Space.shape x = x.shape from rfl] at h
    split at h
    · exact ⟨_, ‹_›⟩
    · exact ⟨_, ‹_›⟩
    · cases h
  obtain ⟨k, hk⟩ := hvector
  rw [hx, hk, Shape.volume, List.foldr_cons, List.foldr_nil, Nat.mul_one]

theorem Method.minimize_of_refused {α V M : Type} [Scalar α] [Space α V] [Curved α V M]
    {m : Method α} {c : Choices α V M} {p : Problem α V M} {x : V} {e : Fault α}
    (h : p.accept x = .error e) : ∃ e', (m.minimize c p x).result = .error e' := by
  rw [minimize]
  rcases hequip : m.equip c with e' | ⟨config, plan, default⟩
  · exact ⟨e', rfl⟩
  · refine ⟨e, ?_⟩
    simp only [launch, Descent.runFrom_of_fault (d := Descent.mk p _ _ config) _ _ h]
    rfl

namespace Solver
variable {α : Type} [Scalar α] {s : Solver α (Tensor α)} {x : Tensor α}
  {f : Choices α (Tensor α) (Tensor α) → Problem α (Tensor α) (Tensor α) → Tensor α →
    Report α (Tensor α)}
  {p : Problem α (Tensor α) (Tensor α)}

/-- The point that a search of the library reaches goes into the start. -/
theorem shape_of_ok (hf : s.method.Function f) (hcheck : s.check = .ok ()) (hs : s.OwnSearch)
    (hx : x.entries.size = x.shape.volume) {r : Outcome α (Tensor α)}
    (hr : (f s.choices p x).result = .ok r) : r.point.shape = x.shape := by
  obtain ⟨config, plan, default, -, hequip⟩ := exists_equip hf hcheck
  rw [hf.eq_minimize] at hr
  rcases haccept : p.accept x with e | y
  · obtain ⟨e', he'⟩ := Method.minimize_of_refused (m := s.method) (c := s.choices) haccept
    cases he'.symm.trans hr
  obtain rfl := Descent.eq_of_accept haccept
  have hguide : ∃ l : LineSearch α,
      s.choices.guide default = (l.searcher : Searcher α (Tensor α) (Tensor α)) := by
    rcases hline : s.lineSearch with _ | g
    · exact ⟨default, by simp [Choices.guide, choices, hline]⟩
    · obtain ⟨l, rfl⟩ := hs g hline
      exact ⟨l, by simp [Choices.guide, choices, hline, Guide.searcher]⟩
  obtain ⟨l, hguide⟩ := hguide
  have hrun := (Method.minimize_eq_run hequip haccept).1
  rw [hguide] at hrun
  exact Descent.shape_of_run (s := l) rfl (p.size_of_accept haccept hx) _ (hrun.symm.trans hr)

end Solver

end Downhill
