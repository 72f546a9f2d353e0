import Downhill.Proofs.Descent.Opening
import Downhill.Proofs.Descent.Round

/-! The course of a run. After every step the end test is made, and the run goes on only where it
fails; so a run that ends says by its status what the tests said, how many steps were taken, and
in which phase of the protocol it stopped. -/
namespace Downhill
variable {σ ρ α V M : Type} [Scalar α] [Space α V]

namespace Phase

omit [Scalar α] in
theorem iterate_answered (p : Phase α V) (e : Event α V) :
    (p.answered e).iterate = (p.answered e).accepted?.getD p.iterate := by
  rcases e with ⟨q, f | answer⟩
  · rfl
  · cases p <;> cases q <;> rfl

omit [Scalar α] in
/-- A run stands at the iterate that was accepted last. -/
theorem iterate_along (p : Phase α V) (events : List (Event α V)) :
    (p.along events).iterate = (p.accepted events).getLastD p.iterate := by
  induction events generalizing p with
  | nil => rfl
  | cons e events ih =>
    refine (ih (p.answered e)).trans ?_
    rw [iterate_answered, accepted]
    cases (p.answered e).accepted? with
    | none => rfl
    | some x => exact (List.getLastD_cons ..).symm

end Phase

namespace Descent
variable (d : Descent σ ρ α V M)

/-- The end tests after steps from `x` through these iterates. -/
def verdicts (x : Iterate α V) : List (Iterate α V) → List (Except (Fault α) Bool)
  | [] => []
  | y :: path => d.verdict x y :: verdicts y path

/-- The end tests of a run: one at the start, which takes the place of its own predecessor, and one
after every step. -/
def tests (start : Iterate α V) (path : List (Iterate α V)) : List (Except (Fault α) Bool) :=
  d.verdicts start (start :: path)

omit [Scalar α] [Space α V] in
theorem verdicts_snoc (x y : Iterate α V) (path : List (Iterate α V)) :
    d.verdicts x (path ++ [y]) = d.verdicts x path ++ [d.verdict (path.getLastD x) y] := by
  induction path generalizing x with
  | nil => rfl
  | cons z path ih => simp only [List.cons_append, verdicts, ih, List.getLastD_cons]

omit [Scalar α] [Space α V] in
theorem tests_snoc (start y : Iterate α V) (path : List (Iterate α V)) :
    d.tests start (path ++ [y]) = d.tests start path ++ [d.verdict (path.getLastD start) y] := by
  rw [tests, ← List.cons_append, verdicts_snoc, List.getLastD_cons]
  rfl

/-- How a run ends that has accepted the iterates `path`: the end test is met for the first time, or
the cap on the steps is reached, or no call is due any more. -/
inductive Ending (start : Iterate α V) (path : List (Iterate α V)) : Phase α V → Stop α V → Prop
  | converged {x : Iterate α V} {rest : List (Except (Fault α) Bool)}
      (htests : d.tests start path = rest ++ [.ok true]) (hrest : ∀ r ∈ rest, r = .ok false) :
      Ending start path (.ready x) ⟨.converged, .toleranceMet, path.length, x⟩
  | capped {x : Iterate α V} (htests : ∀ r ∈ d.tests start path, r = .ok false)
      (hlength : path.length = d.config.maxIters) :
      Ending start path (.ready x) ⟨.iterationCap, .iterationCap, path.length, x⟩
  | closed {p : Phase α V} {status : Status} {message : RunMessage α}
      (htests : ∀ r ∈ d.tests start path, r = .ok false)
      (hlength : path.length < d.config.maxIters) (hclosing : p.closing = some (status, message)) :
      Ending start path p ⟨status, message, path.length + message.untaken, p.iterate⟩

namespace Ending
variable {d} {start : Iterate α V} {path : List (Iterate α V)} {p : Phase α V} {stop : Stop α V}
  (h : d.Ending start path p stop)
include h

theorem iterations_eq : stop.iterations = path.length + stop.message.untaken := by
  cases h <;> rfl

theorem final_eq : stop.final = p.iterate := by
  cases h <;> rfl

/-- A run stops before an iteration, or where no call is due. -/
theorem stopped :
    (stop.status = .converged ∨ stop.status = .iterationCap) ∧ p = .ready p.iterate ∨
      p.closing = some (stop.status, stop.message) := by
  cases h with
  | converged => exact .inl ⟨.inl rfl, rfl⟩
  | capped => exact .inl ⟨.inr rfl, rfl⟩
  | closed _ _ hclosing => exact .inr hclosing

end Ending

end Descent

namespace Scene
variable {s : Scene σ ρ α V M} {p : Phase α V} {met path : List (Iterate α V)}
  {t : Flow σ ρ α V × Ledger α V}

theorem Stands.iterate (h : s.Stands p met path t) : p.iterate = met.getLastD s.start := by
  obtain ⟨events, h⟩ := h
  rw [← h.along, Phase.iterate_along, h.accepted]
  rfl

/-- The run stands at an iterate that it has accepted after this many steps, and no test was met. -/
def Travels (s : Scene σ ρ α V M) (steps : ℕ) (u : Progress α V)
    (t : Flow σ ρ α V × Ledger α V) : Prop :=
  ∃ path, path.length = steps ∧ u.iterations = steps ∧
    (∀ r ∈ s.descent.tests s.start path, r = .ok false) ∧ s.Noted (.ready u.current) path t

/-- What a run leaves behind: it ended in some phase, or it broke off. -/
def Over (s : Scene σ ρ α V M) : Except (Fault α) (Stop α V) → Flow σ ρ α V × Ledger α V → Prop
  | .ok stop, t => ∃ p path, s.descent.Ending s.start path p stop ∧ s.Noted p path t
  | .error _, t => s.Orderly t

theorem ensures_round {steps : ℕ} (hsteps : steps < s.descent.config.maxIters) (u : Progress α V) :
    Ensures (s.Travels steps u) (s.descent.iterate s.oracle u)
      (Rounded (s.Travels (steps + 1)) (fun stop => s.Over (.ok stop)) fun _ => s.Orderly) := by
  rintro t ⟨path, rfl, hiterations, htests, ht⟩
  have hlast : u.current = path.getLastD s.start := ht.iterate
  -- The path is fixed from here on, so the iteration can be read from the state that notes it.
  refine (?_ : Ensures (s.Noted (.ready u.current) path) _ _) t ht
  refine .mono (ensures_iterate u) (fun _ h => h) fun r t ht => ?_
  rcases r with f | next | stop
  · exact ht
  · obtain ⟨hnext, hverdict, ht⟩ := ht
    refine ⟨_, List.length_append, hnext.trans (congrArg (· + 1) hiterations), ?_, ht⟩
    rw [Descent.tests_snoc, ← hlast, hverdict]
    exact List.forall_mem_append.mpr ⟨htests, List.forall_mem_singleton.mpr rfl⟩
  · obtain ⟨y, rfl, hverdict, ht⟩ | ⟨p, status, message, hp, hclosing, rfl, ht⟩ := ht
    · refine ⟨_, _, ?_, ht⟩
      have hlength : u.iterations + 1 = (path ++ [y]).length := by
        rw [hiterations, List.length_append, List.length_singleton]
      rw [hlength]
      refine .converged ?_ htests
      rw [Descent.tests_snoc, ← hlast, hverdict]
    · refine ⟨p, path, ?_, ht⟩
      rw [hiterations, ← hp]
      exact .closed htests hsteps hclosing

theorem ensures_pursue :
    Ensures (s.Noted (.ready s.start) []) (s.descent.pursue s.oracle s.start) s.Over := by
  refine .bind (ensures_ofExcept _) (fun done => .of_fact fun hdone => ?_)
    fun _ τ hτ => hτ.2.orderly
  have hverdict : s.descent.tests s.start [] = [] ++ [.ok done] := by
    rw [hdone]
    rfl
  cases done with
  | true => exact .pure fun τ hτ => ⟨_, [], .converged hverdict nofun, hτ⟩
  | false =>
    have hbegun : ∀ τ, s.Noted (.ready s.start) [] τ → s.Travels 0 ⟨s.start, 0⟩ τ :=
      fun τ hτ => ⟨[], rfl, rfl, by simp [hverdict], hτ⟩
    have hloop : Ensures (s.Noted (.ready s.start) []) (upTo (s.descent.iterate s.oracle) _ _) _ :=
      .mono (.upTo_counted (I := s.Travels) (fun _ hk => ensures_round hk) _) hbegun fun _ _ h => h
    refine .bind hloop (fun r => ?_) fun _ _ h => h
    cases r with
    | inr stop => exact .pure fun _ h => h
    | inl u =>
      refine .pure fun τ ⟨path, hlength, hiterations, htests, hτ⟩ => ⟨_, path, ?_, hτ⟩
      rw [Progress.stop, hiterations, ← hlength]
      exact .capped htests hlength

end Scene

namespace Descent
variable [Curved α V M] {d : Descent σ ρ α V M} {x : V} {start : Iterate α V}

/-- The events of a run from an open start: the strategy agreed to begin, every call was due, and
was answered by strategy and search as the calls before it had left them. -/
def Converses (d : Descent σ ρ α V M) (x : V) (start : Iterate α V) (state : σ) (search : ρ)
    (events : List (Event α V)) (flow : Flow σ ρ α V) (ledger : Ledger α V) : Prop :=
  (Phase.ready start).Obeys events ∧
  ∃ prepared, d.strategy.prepare (d.work (Space.size x)) start state = .ok prepared ∧
    d.Transcript (d.work (Space.size x))
      (.start prepared search #[.prepare], (openAt (d.work (Space.size x)) x).start.2)
      events (flow, ledger)

/-- A run from an open start closes what it left behind: it refused to begin, or it conversed. Where
the iterations came to a stop, that is how they ended. -/
theorem run_course (state : σ) (search : ρ) (hstart : d.opened x = .ok (.inl start)) :
    (∃ f l, d.strategy.prepare (d.work (Space.size x)) start state = .error f ∧
      d.run x state search = d.close x (.error f) (.start state search #[.prepare]) l) ∨
    ∃ events r flow ledger, d.run x state search = d.close x r flow ledger ∧
      d.Converses x start state search events flow ledger ∧
      ∀ stop, r = .ok stop → (Phase.ready start).accepted events = flow.trace.toList ∧
        d.Ending start flow.trace.toList ((Phase.ready start).along events) stop := by
  obtain hrefused | ⟨prepared, r, t, hprepare, hpursue, hrun⟩ := run_of_opened state search hstart
  · exact .inl hrefused
  let s : Scene σ ρ α V M := ⟨d, d.work (Space.size x),
    (.start prepared search #[.prepare], (openAt (d.work (Space.size x)) x).start.2), start⟩
  have hover : s.Over r t := by
    have h := Scene.ensures_pursue (s := s) s.begun ⟨[], .begin, trivial, rfl, rfl, rfl⟩
    rwa [show (d.pursue (d.work (Space.size x)) start).run.run s.begun = (r, t) from hpursue] at h
  have hconverses : ∀ {events p met path}, s.Led events p met path t →
      d.Converses x start state search events t.1 t.2 := fun hled =>
    ⟨hled.obeys, prepared, hprepare, hled.transcript⟩
  refine .inr ?_
  cases r with
  | error f =>
    obtain ⟨p, met, path, events, hled⟩ := hover
    exact ⟨events, .error f, t.1, t.2, hrun, hconverses hled, fun stop hstop => by cases hstop⟩
  | ok stop =>
    obtain ⟨p, path, hending, events, hled⟩ := hover
    refine ⟨events, .ok stop, t.1, t.2, hrun, hconverses hled, ?_⟩
    rintro _ ⟨⟩
    rw [hled.along, hled.accepted, hled.trace]
    exact ⟨rfl, hending⟩

/-- A run from an open start either refuses to begin or converses. Where it returns an outcome it
has come to an end, and the outcome is that of the end. -/
theorem run_converses (state : σ) (search : ρ) (hstart : d.opened x = .ok (.inl start)) :
    let record := d.run x state search
    (∃ f, d.strategy.prepare (d.work (Space.size x)) start state = .error f ∧
      record.result = .error f ∧ record.flow = .start state search #[.prepare]) ∨
    ∃ events ledger, d.Converses x start state search events record.flow ledger ∧
      ∀ outcome, record.result = .ok outcome → ∃ stop,
        (Phase.ready start).accepted events = record.flow.trace.toList ∧
        d.Ending start record.flow.trace.toList ((Phase.ready start).along events) stop ∧
        outcome = d.outcome x record.flow.trace ledger stop := by
  obtain ⟨f, l, hprepare, hrun⟩ | ⟨events, r, flow, ledger, hrun, hconverses, hend⟩ :=
    run_course state search hstart
  · exact .inl ⟨f, hprepare, by rw [hrun]; rfl, by rw [hrun]; rfl⟩
  refine .inr ⟨events, ledger, ?_⟩
  rw [hrun, flow_close]
  refine ⟨hconverses, fun outcome hout => ?_⟩
  cases r with
  | error f => cases hout
  | ok stop =>
    cases hout
    exact ⟨stop, (hend stop rfl).1, (hend stop rfl).2, rfl⟩

end Descent

end Downhill
