import Downhill.Proofs.Descent.Coherence
import Downhill.Proofs.Descent.Lockstep
import Downhill.Proofs.Descent.Prefix
import Downhill.Proofs.Problem.Filled

/-! Runs that are stopped and taken up again. Where a strategy learns nothing and a search keeps
nothing, an iteration depends on the iterate alone; so what is left of a run is a run of its own,
from the iterate at which it stands, and only the number of steps tells the two apart. The new run
begins at that iterate because an accepted iterate is one that a start would be: everything is
finite there, and it has the value and the gradient of the problem. -/
namespace Downhill
variable {σ α V M β : Type}

/-- States of which nothing is known. -/
abbrev Unrelated {τ τ' : Type} (_ : τ) (_ : τ') : Prop := True

/-- What the oracle answers does not depend on the account. -/
theorem Eval.Quiet.lockstep {c : Eval α V β} (h : c.Quiet) : Lockstep Unrelated c c := by
  intro l l' _
  have hanswer : (c.run.run l').1 = (c.run.run l).1 := (h.answer l').trans (h.answer l).symm
  generalize c.run.run l = x, c.run.run l' = x' at hanswer ⊢
  obtain ⟨e | b, l⟩ := x <;> obtain ⟨e' | b', l'⟩ := x' <;> cases hanswer
  · exact ⟨rfl, trivial⟩
  · exact ⟨rfl, trivial⟩

namespace Oracle.Quiet
variable {o : Oracle α V M} (ho : o.Quiet)
include ho

theorem lockstep_value (x : V) :
    Lockstep Unrelated (o.recorded.value x) (o.recorded.value x) :=
  .bind (fun _ _ _ => ⟨rfl, trivial⟩) fun _ => (ho.value x).lockstep

theorem lockstep_gradient (x : V) :
    Lockstep Unrelated (o.recorded.gradient x) (o.recorded.gradient x) :=
  .bind (fun _ _ _ => ⟨rfl, trivial⟩) fun _ => (ho.gradient x).lockstep

end Oracle.Quiet

/-- What the computation answers does not depend on the account. -/
theorem Tells.lockstep {c : Eval α V β} {e : Except (Fault α) β} (h : Tells Unrelated c e) :
    Lockstep Unrelated c c := by
  have hanswer : ∀ l, (c.run.run l).1 = e := by
    intro l
    obtain ⟨r, u, v, hl, he, -⟩ := h.exists_ends (show Unrelated l l from trivial)
    rw [hl]
    exact (congrArg Prod.fst he).symm
  intro l l' _
  have hl := hanswer l
  have hl' := hanswer l'
  generalize c.run.run l = x, c.run.run l' = x' at hl hl' ⊢
  obtain ⟨e | b, l⟩ := x <;> obtain ⟨e' | b', l'⟩ := x' <;> cases hl <;> cases hl'
  · exact ⟨rfl, trivial⟩
  · exact ⟨rfl, trivial⟩

/-- Results that are related look alike. -/
theorem Both.map_eq {ε τ τ' β' γ : Type} {A : β → τ → β' → τ' → Prop} {E : τ → τ' → Prop}
    {x : Except ε β × τ} {x' : Except ε β' × τ'} (h : Both A E x x') {f : β → γ} {g : β' → γ}
    (hA : ∀ b t b' t', A b t b' t' → f b = g b') : x.1.map f = x'.1.map g := by
  rcases x with ⟨e | b, t⟩ <;> rcases x' with ⟨e' | b', t'⟩
  · exact congrArg Except.error h.1.symm
  · exact h.elim
  · exact h.elim
  · exact congrArg Except.ok (hA b t b' t' h)

/-- Whatever follows two computations in lockstep may rely on equal answers. -/
theorem Alike.before {ε τ τ' γ β' : Type} {R : τ → τ' → Prop} {c : ExceptT ε (StateM τ) γ}
    {c' : ExceptT ε (StateM τ') γ} {f : γ → ExceptT ε (StateM τ) β}
    {f' : γ → ExceptT ε (StateM τ') β'} {A : β → τ → β' → τ' → Prop} (hc : Lockstep R c c')
    (hf : ∀ b, Alike R (f b) (f' b) A R) : Alike R (c >>= f) (c' >>= f') A R := by
  refine .bind hc fun b b' => .of_known (fun _ _ h => h) ?_
  rintro rfl
  exact hf b'

/-- A strategy without memory is always ready to begin, and its answers do not depend on what it
has been told. -/
structure Strategy.Memoryless (s : Strategy σ α V M) (o : Oracle α V M) : Prop where
  ready : ∀ start st, ∃ prepared, s.prepare o start st = .ok prepared
  lockstep : s.Lockstep o o Unrelated Unrelated

/-- So many steps later, at the same iterate. -/
def Progress.later (k : ℕ) (t : Progress α V) : Progress α V :=
  { t with iterations := t.iterations + k }

/-- The same stop, so many steps later. -/
def Stop.later (k : ℕ) (stop : Stop α V) : Stop α V :=
  { stop with iterations := stop.iterations + k }

/-- What an outcome says of the end of a run that began after `earlier` steps of another: point,
value, gradient norm, status, message, and the steps of both. -/
def Outcome.ending (earlier : ℕ) (r : Outcome α V) : V × α × α × Status × RunMessage α × ℕ :=
  (r.point, r.value, r.gradientNorm, r.status, r.message, r.iterations + earlier)

variable [Scalar α] [Space α V]

/-- What an outcome will say of the end of a run that stops so. -/
def Stop.ending (earlier : ℕ) (stop : Stop α V) : V × α × α × Status × RunMessage α × ℕ :=
  (stop.final.point, stop.final.value, Space.norm stop.final.gradient, stop.status, stop.message,
    stop.iterations + earlier)

namespace Descent
variable {d : Descent σ Unit α V M} {o : Oracle α V M}

section Iterations
variable {s : LineSearch α} (hd : d.search = s.machine)
  (hvalue : ∀ x, Downhill.Lockstep Unrelated (o.value x) (o.value x))
  (hgradient : ∀ x, Downhill.Lockstep Unrelated (o.gradient x) (o.gradient x))
  (hs : d.strategy.Memoryless o) (t : Progress α V) (k : ℕ)

open Act

/-- Two runs of which nothing is known. -/
abbrev Apart : Flow σ Unit α V × Ledger α V → Flow σ Unit α V × Ledger α V → Prop :=
  Beside Unrelated Unrelated

omit [Scalar α] [Space α V] in
/-- What changes a state and cannot fail. -/
theorem lockstep_effect (f f' : Flow σ Unit α V × Ledger α V → Flow σ Unit α V × Ledger α V) :
    Downhill.Lockstep Apart (ExceptT.mk fun t => (.ok (), f t) : Act (Flow σ Unit α V) α V Unit)
      (ExceptT.mk fun t => (.ok (), f' t)) :=
  fun _ _ _ => ⟨rfl, trivial, trivial⟩

omit [Scalar α] [Space α V] in
theorem lockstep_ask_apart {c : Act σ α V β}
    (h : Downhill.Lockstep (Beside Unrelated Unrelated) c c) :
    Downhill.Lockstep (Apart (σ := σ)) (ask c) (ask c) :=
  lockstep_within h (fun _ _ _ => trivial) fun _ _ _ _ _ _ => trivial

omit [Scalar α] [Space α V] in
include hs in
theorem lockstep_reset_apart : Downhill.Lockstep Apart d.reset d.reset :=
  .bind (fun _ _ _ => ⟨rfl, trivial, trivial⟩) fun _ => lockstep_ask_apart hs.lockstep.reset

include hs in
theorem lockstep_propose_later :
    Downhill.Lockstep Apart (d.propose o t) (d.propose o (t.later k)) := by
  refine .bind (fun _ _ _ => ⟨rfl, trivial, trivial⟩) fun _ =>
    .bind (lockstep_guarded (lockstep_ask_apart (hs.lockstep.compute t.current))) fun r => ?_
  cases r with
  | error f => exact .pure _
  | ok direction =>
    refine .ite (.bind (lockstep_ofExcept _) fun slope => .ite (.pure _) ?_) (.pure _)
    refine .bind (fun _ _ _ => ⟨rfl, trivial, trivial⟩) fun _ => ?_
    exact .bind (lockstep_reset_apart hs) fun _ => .pure _

include hd hvalue hgradient hs

theorem lockstep_searchAlong_apart (x : Iterate α V) (direction : V) :
    Downhill.Lockstep Apart (d.searchAlong o x direction) (d.searchAlong o x direction) := by
  have hsearch : d.search.Lockstep o o Unrelated := hd ▸ s.lockstep hvalue hgradient
  refine .bind (fun _ _ _ => ⟨rfl, trivial, trivial⟩) fun _ =>
    .bind (lockstep_ask_apart (hs.lockstep.initialStep _ _)) fun asked =>
    .bind (fun _ _ _ => ⟨rfl, trivial, trivial⟩) fun _ => ?_
  exact lockstep_within (hsearch _ asked) (fun _ _ _ => rfl) fun _ _ _ _ _ _ => trivial

theorem lockstep_explore_later (direction : V) :
    Downhill.Lockstep Apart (d.explore o t direction) (d.explore o (t.later k) direction) := by
  have hsearch := lockstep_searchAlong_apart hd hvalue hgradient hs
  refine .bind (hsearch _ _) fun step => .ite (.pure _) ?_
  refine .bind (fun _ _ _ => ⟨rfl, trivial, trivial⟩) fun _ => ?_
  exact .bind (lockstep_reset_apart hs) fun _ => .bind (hsearch _ _) fun _ => .pure _

/-- Two rounds that end alike, the second so many steps after the first. -/
def Later (k : ℕ) (r : Progress α V ⊕ Stop α V) (_ : Flow σ Unit α V × Ledger α V)
    (r' : Progress α V ⊕ Stop α V) (_ : Flow σ Unit α V × Ledger α V) : Prop :=
  Sum.LiftRel (fun u u' => u' = u.later k) (fun stop stop' => stop' = stop.later k) r r'

omit hd hvalue hgradient in
theorem alike_take_later (direction : V) (step : Step α V) :
    Alike Apart (d.take t direction step) (d.take (t.later k) direction step) (Later k)
      Apart := by
  have hcount : t.iterations + k + 1 = t.iterations + 1 + k := by omega
  have hnext : (⟨step.reached, t.iterations + k + 1⟩ : Progress α V) =
      .later k ⟨step.reached, t.iterations + 1⟩ := by rw [hcount]; rfl
  refine .ite Iff.rfl (fun _ => ?_) fun _ => .pure fun _ _ _ => .inr ?_
  · refine .before (lockstep_ofExcept _) fun u => .before (lockstep_ofExcept _) fun y => ?_
    refine .before (lockstep_effect _ _) fun _ =>
      .before (lockstep_ask_apart (hs.lockstep.update _ _ _ _ _)) fun _ => ?_
    refine .before (lockstep_effect _ _) fun _ => .before (lockstep_effect _ _) fun _ => ?_
    refine .before (lockstep_ofExcept _) fun done => .ite Iff.rfl (fun _ => ?_) fun _ => ?_
    · exact .pure fun _ _ _ => .inr (congrArg (fun u => u.stop .converged .toleranceMet) hnext)
    · exact .pure fun _ _ _ => .inl hnext
  · exact congrArg (fun n => Stop.mk _ _ n t.current) hcount

theorem alike_iterate_later :
    Alike Apart (d.iterate o t) (d.iterate o (t.later k)) (Later k) Apart := by
  refine .before (lockstep_propose_later hs t k) fun r => ?_
  cases r with
  | error message => exact .pure fun _ _ _ => .inr rfl
  | ok direction =>
    have hexplore := lockstep_explore_later hd hvalue hgradient hs t k direction
    refine .before (lockstep_guarded hexplore) fun r => ?_
    rcases r with f | ⟨direction, step⟩
    · exact .pure fun _ _ _ => .inr rfl
    · refine .ite Iff.rfl (fun _ => alike_take_later hs t k direction step) fun _ => ?_
      exact .pure fun _ _ _ => .inr rfl

/-- The iterations from an iterate end alike, whatever was counted before them. -/
theorem alike_upTo_later (cap : ℕ) :
    Alike Apart (upTo (d.iterate o) cap t) (upTo (d.iterate o) cap (t.later k)) (Later k)
      Apart := by
  have hround : ∀ u u' : Progress α V,
      Alike (fun τ τ' => u' = u.later k ∧ Apart τ τ') (d.iterate o u) (d.iterate o u')
        (fun r τ r' τ' => Sum.LiftRel (fun u u' => u' = u.later k ∧ Apart τ τ')
          (fun stop stop' => stop' = stop.later k) r r') Apart := by
    refine fun u u' => .of_known (fun _ _ h => h) ?_
    rintro rfl
    refine (alike_iterate_later hd hvalue hgradient hs u k).mono (fun _ _ h => h) ?_ fun _ _ h => h
    rintro _ _ _ _ (h | h)
    · exact .inl ⟨h, trivial, trivial⟩
    · exact .inr h
  refine (Alike.upTo hround cap t (t.later k)).mono (fun _ _ h => ⟨rfl, h⟩) ?_ fun _ _ h => h
  rintro _ _ _ _ (h | h)
  · exact .inl h.1
  · exact .inr h

end Iterations

/-- An iteration that stops a run does not say that the cap is reached. -/
theorem yields_uncapped (t : Progress α V) :
    Yields (d.iterate o t) (Sum.elim (fun _ => True) fun stop => stop.status ≠ .iterationCap) := by
  have hstop : ∀ (u : Progress α V) (message : RunMessage α) {status : Status},
      status ≠ .iterationCap → (u.stop status message).status ≠ .iterationCap := fun _ _ _ h => h
  refine .bind .any fun r _ => ?_
  cases r with
  | error message => exact .pure (hstop _ _ (by decide))
  | ok direction =>
    refine .bind .any fun r _ => ?_
    rcases r with f | ⟨direction, step⟩
    · exact .pure (hstop _ _ (by decide))
    · refine .ite (fun _ => .ite (fun _ => ?_) fun _ => ?_) fun _ => ?_
      · refine .bind .any fun _ _ => .bind .any fun _ _ => .bind .any fun _ _ => ?_
        refine .bind .any fun _ _ => .bind .any fun _ _ => .bind .any fun _ _ => ?_
        exact .bind .any fun _ _ =>
          .ite (fun _ => .pure (hstop _ _ (by decide))) fun _ => .pure trivial
      · exact .pure (hstop _ _ (by decide))
      · exact .pure (hstop _ _ (by decide))

theorem upTo_add_of_inl {τ ε ι : Type} {round : ι → ExceptT ε (StateM τ) (ι ⊕ β)} {a : ℕ}
    {i u : ι} {t t₁ : τ} (h : (upTo round a i).run.run t = (.ok (.inl u), t₁)) (b : ℕ) :
    (upTo round (a + b) i).run.run t = (upTo round b u).run.run t₁ := by
  rw [upTo_add, run_run_bind, h]

/-- The iterations end where their loop does. -/
theorem pursue_of_unmet {start : Iterate α V} (h : d.verdict start start = .ok false) (cap : ℕ)
    (t : Flow σ Unit α V × Ledger α V) :
    ((d.capped cap).pursue o start).run.run t =
      (((upTo (d.iterate o) cap ⟨start, 0⟩).run.run t).1.map Progress.settled,
        ((upTo (d.iterate o) cap ⟨start, 0⟩).run.run t).2) := by
  have hconverged : (d.capped cap).converged start start = Act.ofExcept (.ok false) :=
    congrArg Act.ofExcept h
  rw [pursue, hconverged]
  change (upTo (d.iterate o) cap ⟨start, 0⟩ >>= _).run.run t = _
  rw [run_run_bind]
  rcases (upTo (d.iterate o) cap ⟨start, 0⟩).run.run t with ⟨e | u | stop, t₁⟩ <;> rfl

/-- What a run takes for a start: everything is finite, and value and gradient are those of the
oracle. -/
structure Admits (o : Oracle α V M) (y : Iterate α V) : Prop where
  point : Space.finite y.point = true
  value : Scalar.isFinite y.value = true
  gradient : Space.finite y.gradient = true
  faithful : o.Faithful y

theorem handsOn_admitted {s : LineSearch α} (hd : d.search = s.machine) (ho : o.Quiet) :
    d.HandsOn o.recorded (Admits o) := by
  rintro ray asked step hstart hanswer hsuccess hfinite
  obtain ⟨-, hfaithful⟩ :=
    handsOn_faithful hd ho ray asked step ⟨hstart.point, hstart.faithful⟩ hanswer hsuccess hfinite
  simp only [finiteStep, Bool.and_eq_true] at hfinite
  exact ⟨hfinite.1.1, hfinite.1.2, hfinite.2, hfaithful⟩

variable [Curved α V M] {x : V} {start : Iterate α V} {state : σ}

theorem admits_start (h : d.opened x = .ok (.inl start)) :
    Admits (d.problem.differentiable (Space.size x) d.strategy.needsHessian) start := by
  obtain ⟨hpoint, hx, hvalue, hgradient⟩ := opened_finite h
  exact ⟨hpoint ▸ hx, hvalue, hgradient, (opened_faithful hx h).2⟩

/-- A run from the point of an iterate that it takes for a start begins at this iterate. -/
theorem opened_of_admitted {ρ : Type} {d : Descent σ ρ α V M} {y : Iterate α V}
    (h : Admits (d.problem.differentiable (Space.size y.point) d.strategy.needsHessian) y) :
    d.opened y.point = .ok (.inl y) := by
  have ho := d.problem.quiet_differentiable (Space.size y.point) d.strategy.needsHessian
  have hvalue := fun l => (ho.perform_value y.point l).1.trans h.faithful.1
  have hgradient := fun l => (ho.perform_gradient y.point l).1.trans h.faithful.2
  have hfin : (Scalar.isFinite y.value && Space.finite y.gradient) = true := by
    rw [h.value, h.gradient, Bool.and_self]
  change ((openAt (d.problem.differentiable _ _).recorded y.point).perform {}).1 = _
  rw [openAt, if_pos h.point, Eval.perform_bind]
  rcases hv : ((d.problem.differentiable (Space.size y.point)
    d.strategy.needsHessian).recorded.value y.point).perform {} with ⟨r, l⟩
  obtain rfl : r = .ok y.value := (congrArg Prod.fst hv).symm.trans (hvalue {})
  simp only [Eval.perform_bind]
  rcases hg : ((d.problem.differentiable (Space.size y.point)
    d.strategy.needsHessian).recorded.gradient y.point).perform l with ⟨r, l'⟩
  obtain rfl : r = .ok y.gradient := (congrArg Prod.fst hg).symm.trans (hgradient l)
  simp only [if_pos hfin]
  rfl

/-- An iterate that a run of the library stands at is one that it could begin with. -/
theorem admits_of_noted {s : LineSearch α} (hd : d.search = s.machine) {n : ℕ}
    {begun t : Flow σ Unit α V × Ledger α V} {y : Iterate α V} {path : List (Iterate α V)}
    (hstart : Admits (d.problem.differentiable n d.strategy.needsHessian) start)
    (h : Scene.Noted ⟨d, d.work n, begun, start⟩ (.ready y) path t) :
    Admits (d.problem.differentiable n d.strategy.needsHessian) y := by
  obtain ⟨events, hled⟩ := h
  have ho := d.problem.quiet_differentiable n d.strategy.needsHessian
  have hbears := hled.transcript.bears (handsOn_admitted hd ho)
    (Phase.bears_of_not_found (p := .ready start) hstart rfl) hled.obeys
  rw [hled.along] at hbears
  exact hbears.iterate

/-- Where the loop of a run from an open start goes on to its cap, no end test was met, and a run
could begin with the iterate that was reached. -/
theorem exists_reached {s : LineSearch α} (hd : d.search = s.machine)
    (htest : d.problem.converged = gradientTest) (hopen : d.opened x = .ok (.inl start))
    (hunmet : d.verdict start start = .ok false) {a : ℕ} {begun t : Flow σ Unit α V × Ledger α V}
    (hbegun : begun.1.trace = #[]) {r : Progress α V ⊕ Stop α V}
    (hloop : (upTo (d.iterate (d.work (Space.size x))) a ⟨start, 0⟩).run.run begun = (.ok r, t))
    (hcap : (Progress.settled r).status = .iterationCap) :
    ∃ y, r = .inl ⟨y, a⟩ ∧ d.verdict y y = .ok false ∧
      Admits (d.problem.differentiable (Space.size x) d.strategy.needsHessian) y := by
  let scene : Scene σ Unit α V M := ⟨d.capped a, d.work (Space.size x), begun, start⟩
  have huncapped : Yields (upTo (d.iterate (d.work (Space.size x))) a ⟨start, 0⟩) _ :=
    .upTo (fun u (_ : True) => yields_uncapped u) trivial a
  have hstops := huncapped begun trivial
  have hnoted : scene.Noted (.ready start) [] begun :=
    ⟨[], .begin, trivial, rfl, rfl, congrArg Array.toList hbegun⟩
  have htravels : scene.Travels 0 ⟨start, 0⟩ begun :=
    ⟨[], rfl, rfl, fun r hr => (List.mem_singleton.mp hr).trans hunmet, hnoted⟩
  have htravel : Ensures _ (upTo (scene.descent.iterate scene.oracle) a ⟨start, 0⟩) _ :=
    .upTo_counted (I := scene.Travels) (fun _ hk => Scene.ensures_round hk) _
  have hloops := htravel begun htravels
  rw [show (upTo (scene.descent.iterate scene.oracle) a ⟨start, 0⟩).run.run begun = (.ok r, t)
    from hloop] at hloops
  rw [hloop] at hstops
  rcases r with ⟨y, k⟩ | stop
  · obtain ⟨path, -, hk, htests, hnoted⟩ := hloops
    obtain rfl : k = a := hk
    refine ⟨y, rfl, ?_, admits_of_noted (d := d.capped k) hd (admits_start hopen) hnoted⟩
    have hlast : y = path.getLastD start := hnoted.iterate
    have hunmet := htests _ (List.mem_of_getLast? (getLast?_tests_gradientTest htest))
    rw [← hlast] at hunmet
    rw [verdict, htest]
    exact hunmet
  · exact absurd hcap hstops

omit [Curved α V M] in
theorem ending_settled {k : ℕ} {r r' : Progress α V ⊕ Stop α V}
    {t t' : Flow σ Unit α V × Ledger α V} (h : Later k r t r' t') :
    (Progress.settled r).ending k = (Progress.settled r').ending 0 := by
  rcases h with h | h <;> rw [h] <;> rfl

omit [Curved α V M] in
/-- A run ends as its iterations stop. -/
theorem ending_close (d : Descent σ Unit α V M) (x : V) (r : Except (Fault α) (Stop α V))
    (f : Flow σ Unit α V) (l : Ledger α V) (k : ℕ) :
    (d.close x r f l).result.map (·.ending k) = r.map (·.ending k) := by
  cases r <;> rfl

/-- A run of a strategy without memory, from an open start that is no end, ends as its loop does. -/
theorem exists_loop (hs : d.strategy.Memoryless (d.work (Space.size x)))
    (hopen : d.opened x = .ok (.inl start)) (hunmet : d.verdict start start = .ok false)
    (state : σ) : ∃ begun, begun.1.trace = #[] ∧
      ∀ cap k, ((d.capped cap).run x state ()).result.map (·.ending k) =
        ((upTo (d.iterate (d.work (Space.size x))) cap ⟨start, 0⟩).run.run begun).1.map fun r =>
          (Progress.settled r).ending k := by
  obtain ⟨prepared, hprepared⟩ := hs.ready start state
  refine ⟨(.start prepared () #[.prepare], (openAt (d.work (Space.size x)) x).start.2), rfl,
    fun cap k => ?_⟩
  obtain ⟨f, -, hrefused, -⟩ | ⟨prepared', r, t, hready, hpursue, hrun⟩ :=
    run_of_opened (d := d.capped cap) state () hopen
  · cases hprepared.symm.trans hrefused
  obtain rfl := Except.ok.inj (hprepared.symm.trans hready)
  have hloop := (pursue_of_unmet (o := d.work (Space.size x)) hunmet cap _).symm.trans hpursue
  have hresult := (congrArg Prod.fst hloop).symm
  rw [hrun, ending_close, show r = _ from hresult]
  exact Functor.map_map (f := Except (Fault α)) Progress.settled _ _

/-- A run that its cap stops has begun at an open start that is no end. -/
theorem exists_start_of_capped {a : ℕ} {outcome : Outcome α V}
    (hout : ((d.capped a).run x state ()).result = .ok outcome)
    (hcap : outcome.status = .iterationCap) :
    ∃ start, d.opened x = .ok (.inl start) ∧ d.verdict start start = .ok false := by
  rcases hopen : d.opened x with f | start | stop
  · rw [run_of_fault (d := d.capped a) state () hopen] at hout
    cases hout
  · refine ⟨start, rfl, ?_⟩
    obtain ⟨f, l, -, hrun⟩ | ⟨prepared, r, t, -, hpursue, hrun⟩ :=
      run_of_opened (d := d.capped a) state () hopen
    · rw [hrun] at hout
      cases hout
    rw [hrun] at hout
    cases r with
    | error f => cases hout
    | ok stop =>
      obtain rfl := Except.ok.inj hout
      obtain ⟨-, rfl, -⟩ | ⟨hunmet, -⟩ := pursue_eq_ok_iff.mp hpursue
      · cases hcap
      · exact hunmet
  · obtain ⟨record, outcome', hresult, hstatus, hrun⟩ := run_capped_of_stop state () hopen
    rw [hrun, hresult] at hout
    cases hout
    cases hcap.symm.trans hstatus

/-- A run that its cap has stopped after `a` steps can be taken up where it stands. The run from
there with a cap of `b` ends like the run from the start with a cap of `a + b`: with the same fault,
or at the same point with the same value, gradient norm, status and message, and then it has taken
`a` steps less. Nothing but the iterate is handed over. -/
theorem ending_resumed {s : LineSearch α} (hd : d.search = s.machine)
    (htest : d.problem.converged = gradientTest)
    (hs : d.strategy.Memoryless (d.work (Space.size x)))
    {a : ℕ} {outcome : Outcome α V}
    (hout : ((d.capped a).run x state ()).result = .ok outcome)
    (hcap : outcome.status = .iterationCap) (hsize : Space.size outcome.point = Space.size x)
    (b : ℕ) (state' : σ) :
    ((d.capped b).run outcome.point state' ()).result.map (·.ending a) =
      ((d.capped (a + b)).run x state ()).result.map (·.ending 0) := by
  obtain ⟨start, hopen, hunmet⟩ := exists_start_of_capped hout hcap
  obtain ⟨begun, hbegun, hends⟩ := exists_loop hs hopen hunmet state
  have hshort := hends a 0
  rw [hout] at hshort
  rcases hloop : (upTo (d.iterate (d.work (Space.size x))) a ⟨start, 0⟩).run.run begun
    with ⟨e | r, t⟩ <;> rw [hloop] at hshort
  · cases hshort
  have hending : outcome.ending 0 = (Progress.settled r).ending 0 := Except.ok.inj hshort
  simp only [Outcome.ending, Stop.ending, Prod.mk.injEq] at hending
  obtain ⟨hpoint, -, -, hstatus, -⟩ := hending
  obtain ⟨y, rfl, hunmet', hadmits⟩ :=
    exists_reached hd htest hopen hunmet hbegun hloop (hstatus.symm.trans hcap)
  have hpoint : outcome.point = y.point := hpoint
  rw [hpoint] at hsize ⊢
  rw [← hsize] at hadmits hs
  have ho := d.problem.quiet_differentiable (Space.size y.point) d.strategy.needsHessian
  have hvalue := ho.lockstep_value
  have hgradient := ho.lockstep_gradient
  obtain ⟨begun', -, hends'⟩ := exists_loop hs (opened_of_admitted hadmits) hunmet' state'
  have hboth := alike_upTo_later hd hvalue hgradient hs ⟨y, 0⟩ a b begun' t ⟨trivial, trivial⟩
  have hlater : Progress.later a ⟨y, 0⟩ = ⟨y, a⟩ := by simp [Progress.later]
  rw [hends, hends', ← hsize, upTo_add_of_inl (hsize ▸ hloop)]
  rw [hlater] at hboth
  exact hboth.map_eq fun _ _ _ _ h => ending_settled h

/-- Where a run of the library has converged, the gradient is small, and a run could begin with the
iterate at which it ended. -/
theorem exists_converged {s : LineSearch α} (hd : d.search = s.machine)
    (htest : d.problem.converged = gradientTest) {outcome : Outcome α V}
    (hout : (d.run x state ()).result = .ok outcome) (hstatus : outcome.status = .converged) :
    ∃ start prepared y, start.point = x ∧
      d.strategy.prepare (d.work (Space.size x)) start state = .ok prepared ∧
      Admits (d.problem.differentiable (Space.size x) d.strategy.needsHessian) y ∧
      withinTolerance (Space.norm y.gradient) d.config.tolerance = true ∧
      outcome.point = y.point ∧ outcome.value = y.value ∧
      outcome.gradientNorm = Space.norm y.gradient := by
  have ho := d.problem.quiet_differentiable (Space.size x) d.strategy.needsHessian
  rcases hopen : d.opened x with f | start | stop
  · rw [run_of_fault state () hopen] at hout
    cases hout
  · obtain ⟨f, -, hfault, -⟩ | ⟨events, ledger, ⟨hobeys, prepared, hprepared, htranscript⟩, hend⟩ :=
      run_converses state () hopen
    · cases hfault.symm.trans hout
    obtain ⟨stop, haccepted, hending, rfl⟩ := hend outcome hout
    have hbears := (htranscript.bears (handsOn_admitted hd ho)
      (Phase.bears_of_not_found (p := .ready start) (admits_start hopen) rfl) hobeys).iterate
    have hfinal : stop.final = (d.run x state ()).flow.trace.toList.getLastD start := by
      rw [hending.final_eq, Phase.iterate_along, haccepted]
      rfl
    have hmet := hending.converged_iff.mp hstatus
    rw [getLast?_tests_gradientTest htest, ← hfinal] at hmet
    rw [← hending.final_eq] at hbears
    exact ⟨start, prepared, stop.final, (opened_finite hopen).1, hprepared, hbears,
      Except.ok.inj (Option.some.inj hmet), rfl, rfl, rfl⟩
  · obtain ⟨l, hrun⟩ := run_of_stop state () hopen
    have hfails := yields_open_stop (d.work (Space.size x)) x {} trivial
    rw [show ((openAt (d.work (Space.size x)) x).run.run {}).1 = .ok (.inr stop) from hopen]
      at hfails
    rw [hrun] at hout
    cases hout
    cases hstatus.symm.trans (hfails stop rfl)

/-- A run that begins where the gradient is small ends there. -/
theorem run_of_small {ρ : Type} {d : Descent σ ρ α V M} {y : Iterate α V}
    (htest : d.problem.converged = gradientTest)
    (hadmits : Admits (d.problem.differentiable (Space.size y.point) d.strategy.needsHessian) y)
    (hsmall : withinTolerance (Space.norm y.gradient) d.config.tolerance = true) {prepared : σ}
    (hprepared : d.strategy.prepare (d.work (Space.size y.point)) y state = .ok prepared)
    (search : ρ) :
    ∃ outcome, (d.run y.point state search).result = .ok outcome ∧ outcome.status = .converged ∧
      outcome.iterations = 0 ∧ outcome.point = y.point ∧ outcome.value = y.value ∧
      outcome.gradientNorm = Space.norm y.gradient := by
  have hopen : d.opened y.point = .ok (.inl y) := opened_of_admitted hadmits
  have hmet : d.verdict y y = .ok true := by
    rw [verdict, htest, gradientTest, hsmall]
  obtain ⟨f, l, hrefused, -⟩ | ⟨_, r, t, -, hpursue, hrun⟩ := run_of_opened state search hopen
  · cases hprepared.symm.trans hrefused
  have hstops : ∀ τ,
      ((d.capped d.config.maxIters).pursue (d.work (Space.size y.point)) y).run.run τ =
        (.ok ⟨.converged, .toleranceMet, 0, y⟩, τ) := fun _ =>
    pursue_eq_ok_iff.mpr (.inl ⟨hmet, rfl, rfl⟩)
  obtain rfl := congrArg Prod.fst (hpursue.symm.trans (hstops _))
  exact ⟨_, congrArg Record.result hrun, rfl, rfl, rfl, rfl, rfl⟩

end Descent

end Downhill
