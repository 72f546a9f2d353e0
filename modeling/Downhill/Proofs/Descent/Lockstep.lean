import Downhill.Proofs.Lockstep
import Downhill.Solver.Method
import Downhill.LineSearch.Family
import Downhill.Proofs.Descent.Opening

/-! Two runs in lockstep. Where two runs have the same strategy, search and settings, and hear the
same of their problems, they make the same calls, accept the same iterates and stop for the same
reason, although the state of the strategy and the account may differ between them. -/

/-! Strategies of two runs. What a strategy of the library proposes depends on the answers of the
oracle and on what it has learned since the run began; the counters that it keeps beside that decide
nothing. So two runs of one strategy keep in step, whatever the states were before they began. -/
namespace Downhill
variable {σ α V M : Type}

/-- One strategy in two runs: it prepares for both in the same way, whatever its states were, and
its calls keep in step where states are related by `S` and accounts by `L`. -/
structure Strategy.Lockstep (s : Strategy σ α V M) (o o' : Oracle α V M) (S : σ → σ → Prop)
    (L : Ledger α V → Ledger α V → Prop) : Prop where
  prepare : ∀ start st st',
    (∃ f, s.prepare o start st = .error f ∧ s.prepare o' start st' = .error f) ∨
    ∃ prepared prepared', s.prepare o start st = .ok prepared ∧
      s.prepare o' start st' = .ok prepared' ∧ S prepared prepared'
  compute : ∀ x, Downhill.Lockstep (Beside S L) (s.compute o x) (s.compute o' x)
  initialStep : ∀ g d, Downhill.Lockstep (Beside S L) (s.initialStep g d) (s.initialStep g d)
  update : ∀ u y g a d, Downhill.Lockstep (Beside S L) (s.update u y g a d) (s.update u y g a d)
  reset : Downhill.Lockstep (Beside S L) s.reset s.reset

/-- The two states differ at most in the number of restarts. -/
def ConjugateGradient.Recounted (st st' : ConjugateGradient.State α V) : Prop :=
  ∃ k, st' = { st with restarts := k }

variable [Scalar α] [Space α V] {o o' : Oracle α V M} {L : Ledger α V → Ledger α V → Prop}
  (hremark : ∀ r : Remark α, Lockstep L (Eval.remark r) (Eval.remark r))
include hremark

open Act

theorem ConjugateGradient.lockstep (s : ConjugateGradient) :
    (s.strategy : Strategy (State α V) α V M).Lockstep o o' Recounted L := by
  have hmodify : ∀ f : State α V → State α V,
      (∀ st k, ∃ k', f { st with restarts := k } = { f st with restarts := k' }) →
      Lockstep (Beside Recounted L) (modifyState f : Act (State α V) α V Unit) (modifyState f) := by
    refine fun f hf => lockstep_modifyState ?_
    rintro st _ ⟨k, rfl⟩
    exact hf st k
  have hrestart : ∀ (gradient : V) reason, Lockstep (Beside Recounted L)
      (restart gradient reason : Act (State α V) α V V) (restart gradient reason) :=
    fun _ _ => .bind (hmodify _ fun _ _ => ⟨_, rfl⟩) fun _ =>
      .bind (lockstep_ofEval (hremark _)) fun _ => .pure _
  refine ⟨fun _ _ _ => .inr ⟨_, _, rfl, rfl, _, rfl⟩, fun x => ?_, fun g d => ?_,
    fun u y g a d => ?_,
    hmodify (fun st => { st.cleared with restarts := st.restarts + 1 }) fun _ _ => ⟨_, rfl⟩⟩
  · refine lockstep_state ?_
    rintro ⟨_, interval, memory, slope, since⟩ _ ⟨k, rfl⟩
    cases memory with
    | none => exact .pure _
    | some last =>
      refine .ite (hrestart _ _) (.bind (lockstep_ofExcept _) fun b => .ite ?_ (hrestart _ _))
      refine .bind (lockstep_ofExcept _) fun d => .bind (lockstep_ofExcept _) fun a => ?_
      exact .ite (.pure _) (hrestart _ _)
  · refine lockstep_state ?_
    rintro st _ ⟨k, rfl⟩
    exact .bind (lockstep_ofExcept _) fun _ => .pure _
  · exact .bind (lockstep_ofExcept _) fun _ => .bind (hmodify _ fun _ k => ⟨k, rfl⟩) fun _ =>
      .bind (lockstep_ofExcept _) fun _ => hmodify _ fun _ k => ⟨k, rfl⟩

/-- A quasi-Newton strategy begins anew with every run. -/
theorem QuasiNewton.lockstep (s : QuasiNewton α) :
    (s.strategy : Strategy _ α V M).Lockstep o o' Eq L := by
  have hcurrent : ∀ missing, Lockstep (Beside Eq L)
      (current missing : Act (State α s.memory.toNat V) α V _) (current missing) := by
    refine fun missing => lockstep_state ?_
    rintro st _ rfl
    cases st.history with
    | none => exact .throw _
    | some h => exact .pure _
  have hmodify : ∀ f : State α s.memory.toNat V → State α s.memory.toNat V,
      Lockstep (Beside Eq L) (modifyState f : Act _ α V Unit) (modifyState f) := fun f =>
    lockstep_modifyState fun _ _ h => congrArg f h
  refine ⟨fun start _ _ => ?_, fun x => ?_, fun g d => ?_, fun u y g a d => ?_, ?_⟩
  · change (∃ f, s.begin start.point = .error f ∧ s.begin start.point = .error f) ∨
      ∃ prepared prepared', s.begin start.point = .ok prepared ∧
        s.begin start.point = .ok prepared' ∧ prepared = prepared'
    rcases s.begin start.point with f | prepared
    · exact .inl ⟨f, rfl, rfl⟩
    · exact .inr ⟨prepared, prepared, rfl, rfl, rfl⟩
  · exact .bind (hcurrent _) fun h => lockstep_ofExcept _
  · exact .bind (hcurrent _) fun h => .ite (.bind (lockstep_ofExcept _) fun _ => .pure _) (.pure _)
  · refine .bind (hcurrent _) fun h => ?_
    rcases h.push u y with ⟨stored, h⟩
    refine .bind (hmodify _) fun _ => ?_
    rcases stored with f | _ | _
    · exact .throw _
    · exact .bind (hmodify _) fun _ => lockstep_ofEval (hremark _)
    · exact .pure _
  · exact .bind (hcurrent _) fun h => hmodify _

variable [Curved α V M] (hhessian : ∀ x, Lockstep L (o.hessian x) (o'.hessian x))

include hhessian in
/-- A Newton strategy never looks at its state. -/
theorem Newton.lockstep (s : Newton α) :
    (s.strategy : Strategy _ α V M).Lockstep o o' (fun _ _ => True) L where
  prepare _ _ _ := .inr ⟨_, _, rfl, rfl, trivial⟩
  compute x := by
    refine .bind (lockstep_ofEval (hhessian _)) fun m => .bind (lockstep_ofExcept _) fun _ => ?_
    refine .bind (lockstep_ofExcept _) fun m => ?_
    rcases Curved.factor m s.beta s.growth s.attempts with f | ⟨l, tau⟩
    · cases f with
      | notPositiveDefinite attempts =>
        exact .bind (lockstep_modifyState fun _ _ _ => trivial) fun _ =>
          .bind (lockstep_ofEval (hremark _)) fun _ => .pure _
      | _ => exact .throw _
    · refine .bind (lockstep_modifyState fun _ _ _ => trivial) fun _ =>
        .ite ?_ (lockstep_ofExcept _)
      exact .bind (lockstep_ofEval (hremark _)) fun _ => lockstep_ofExcept _
  initialStep _ _ := .pure _
  update _ _ _ _ _ := .pure _
  reset := .pure _

namespace Plan

/-- The states of two runs of a plan that propose the same. -/
def SameCourse {α V M : Type} [Scalar α] [Space α V] [Curved α V M] : (plan : Plan α) →
    (st st' : (plan.strategist : Strategist α V M).State) → Prop
  | newton _ => fun _ _ => True
  | conjugateGradient _ => ConjugateGradient.Recounted
  | quasiNewton _ => Eq

/-- A strategy asks for Hessians only if it needs them. -/
theorem lockstep (plan : Plan α)
    (hhessian : (plan.strategist : Strategist α V M).strategy.needsHessian = true →
      ∀ x, Lockstep L (o.hessian x) (o'.hessian x)) :
    (plan.strategist : Strategist α V M).strategy.Lockstep o o' plan.SameCourse L := by
  cases plan with
  | newton s => exact s.lockstep hremark (hhessian rfl)
  | conjugateGradient s => exact s.lockstep hremark
  | quasiNewton s => exact s.lockstep hremark

end Plan

end Downhill

/-! Searches of two oracles. A search of the library asks for values and gradients and looks at
nothing else, so with oracles in lockstep it makes the same trials and settles on the same step. -/
namespace Downhill
variable {ρ α V M : Type}

/-- The search of two oracles in lockstep, from the same state. -/
def Search.Lockstep (s : Search ρ α V M) (o o' : Oracle α V M)
    (L : Ledger α V → Ledger α V → Prop) : Prop :=
  ∀ r asked, Downhill.Lockstep (Beside Eq L) (s.run o r asked) (s.run o' r asked)

/-- A search of one oracle from the same state and with the same account. -/
theorem Search.lockstep_refl (s : Search ρ α V M) (o : Oracle α V M) : s.Lockstep o o Eq := by
  rintro r asked ⟨st, l⟩ ⟨_, _⟩ ⟨rfl, rfl⟩
  have h := Downhill.Lockstep.refl (s.run o r asked) (st, l) _ rfl
  refine h.mono (fun _ _ _ _ h => ⟨h.1, ?_⟩) fun _ _ h => ?_
  · exact ⟨congrArg Prod.fst h.2, congrArg Prod.snd h.2⟩
  · exact ⟨congrArg Prod.fst h, congrArg Prod.snd h⟩

variable [Scalar α] [Space α V] {o o' : Oracle α V M} {L : Ledger α V → Ledger α V → Prop}
  (hvalue : ∀ x, Lockstep L (o.value x) (o'.value x))
  (hgradient : ∀ x, Lockstep L (o.gradient x) (o'.gradient x))

open Eval

omit [Space α V] in
include hvalue in
theorem lockstep_trialValue (x : V) (alpha : α) :
    Lockstep L (trialValue o x alpha) (trialValue o' x alpha) :=
  .bind (hvalue x) fun _ => .bind (lockstep_ofExcept _) fun _ => .pure _

omit [Scalar α] in
include hgradient in
theorem lockstep_trialGradient (x : V) (alpha : α) :
    Lockstep L (trialGradient o x alpha) (trialGradient o' x alpha) :=
  .bind (hgradient x) fun _ => .bind (lockstep_ofExcept _) fun _ => .pure _

include hvalue hgradient

theorem Backtracking.lockstep (s : Backtracking α) (r : Ray α V) (asked : Option α) :
    Lockstep L (s.search o r asked) (s.search o' r asked) := by
  refine .bind (lockstep_ofExcept _) fun p => .rounds (fun t => ?_) _ _ fun r => ?_
  · refine .bind (lockstep_trialValue hvalue _ _) fun f => .ite ?_ ?_
    · exact .bind (lockstep_trialGradient hgradient _ _) fun _ => .pure _
    · exact .ite (.pure _) (.pure _)
  · cases r <;> exact .pure _

theorem CubicBacktracking.lockstep (s : CubicBacktracking α) (r : Ray α V) (asked : Option α) :
    Lockstep L (s.search o r asked) (s.search o' r asked) := by
  refine .bind (lockstep_ofExcept _) fun p => .rounds (fun t => ?_) _ _ fun r => ?_
  · refine .bind (lockstep_trialValue hvalue _ _) fun f => .ite ?_ ?_
    · exact .bind (lockstep_trialGradient hgradient _ _) fun _ => .pure _
    · exact .bind (lockstep_ofExcept _) fun _ => .ite (.pure _) (.pure _)
  · cases r <;> exact .pure _

theorem Bisection.lockstep (s : Bisection α) (r : Ray α V) (asked : Option α) :
    Lockstep L (s.search o r asked) (s.search o' r asked) := by
  refine .bind (lockstep_ofExcept _) fun p => .rounds (fun t => ?_) _ _ fun r => ?_
  · refine .bind (lockstep_trialValue hvalue _ _) fun f => .ite ?_ (.pure _)
    refine .bind (lockstep_trialGradient hgradient _ _) fun g => .ite (.pure _) ?_
    exact .bind (lockstep_ofExcept _) fun _ => .ite (.pure _) (.pure _)
  · cases r <;> exact .pure _

theorem MoreThuente.lockstep (s : MoreThuente α) (r : Ray α V) (asked : Option α) :
    Lockstep L (s.search o r asked) (s.search o' r asked) := by
  refine .bind (lockstep_ofExcept _) fun p => .rounds (fun t => ?_) _ _ fun r => ?_
  · refine .bind (hvalue _) fun f => .bind (hgradient _) fun g => ?_
    refine .bind (lockstep_ofExcept _) fun _ => .bind (lockstep_ofExcept _) fun _ => ?_
    exact .bind (lockstep_ofExcept _) fun _ => .pure _
  · cases r <;> exact .pure _

/-- Whatever its parameters are, a search of the library keeps in step. -/
theorem LineSearch.lockstep (s : LineSearch α) : s.machine.Lockstep o o' L := by
  intro r asked
  refine Act.lockstep_ofEval ?_
  cases s with
  | base => exact .throw _
  | backtracking s => exact s.lockstep hvalue hgradient r asked
  | cubic s => exact s.lockstep hvalue hgradient r asked
  | bisection s => exact s.lockstep hvalue hgradient r asked
  | moreThuente s => exact s.lockstep hvalue hgradient r asked

end Downhill

/-! Whole runs. -/
namespace Downhill
variable {σ ρ α V M β : Type}

/-- The flows differ at most in the states of the strategy, which are related by `S`. -/
structure Flow.Matches (S : σ → σ → Prop) (f f' : Flow σ ρ α V) : Prop where
  strategy : S f.strategy f'.strategy
  search : f'.search = f.search
  trace : f'.trace = f.trace
  calls : f'.calls = f.calls

section Parts
variable {S : σ → σ → Prop} {L : Ledger α V → Ledger α V → Prop}

theorem lockstep_guarded {c c' : Act σ α V β} (h : Lockstep (Beside S L) c c') :
    Lockstep (Beside S L) (guarded c) (guarded c') := by
  rintro t t' ht
  obtain ⟨r, u, u', hc, hc', hu⟩ := h.exists_ends ht
  change Both _ _ ((guarded c).perform t.1 t.2) ((guarded c').perform t'.1 t'.2)
  rw [perform_guarded, perform_guarded, show c.perform t.1 t.2 = (r, u) from hc,
    show c'.perform t'.1 t'.2 = (r, u') from hc']
  rcases r with f | b
  · cases f <;> exact ⟨rfl, hu⟩
  · exact ⟨rfl, hu⟩

open Act

theorem lockstep_note (c : Call α V) :
    Lockstep (Beside (Flow.Matches S) L)
      (Descent.note c : Act (Flow σ ρ α V) α V Unit) (Descent.note c) :=
  lockstep_modifyState fun _ _ h => ⟨h.strategy, h.search, h.trace, congrArg (·.push c) h.calls⟩

theorem lockstep_ask {c c' : Act σ α V β} (h : Lockstep (Beside S L) c c') :
    Lockstep (Beside (Flow.Matches S) L)
      (Descent.ask c : Act (Flow σ ρ α V) α V β) (Descent.ask c') :=
  lockstep_within h (fun _ _ h => h.strategy) fun _ _ _ _ h hst =>
    ⟨hst, h.search, h.trace, h.calls⟩

theorem lockstep_look {c c' : Act ρ α V β} (h : Lockstep (Beside Eq L) c c') :
    Lockstep (Beside (Flow.Matches S) L)
      (Descent.look c : Act (Flow σ ρ α V) α V β) (Descent.look c') :=
  lockstep_within h (fun _ _ h => h.search.symm) fun _ _ _ _ h hst =>
    ⟨h.strategy, hst.symm, h.trace, h.calls⟩

end Parts

namespace Descent

/-- The same descent for another problem. -/
def on (d : Descent σ ρ α V M) (p : Problem α V M) : Descent σ ρ α V M :=
  { d with problem := p }

/-- A run of `d` and a run for the problem `p` hear the same: their strategy and their search keep
in step, their end tests are one, and a remark leaves their accounts related. -/
structure Lockstep (d : Descent σ ρ α V M) (p : Problem α V M) (o o' : Oracle α V M)
    (S : σ → σ → Prop) (L : Ledger α V → Ledger α V → Prop) : Prop where
  test : p.converged = d.problem.converged
  remark : ∀ r : Remark α, Downhill.Lockstep L (Eval.remark r) (Eval.remark r)
  strategy : d.strategy.Lockstep o o' S L
  search : d.search.Lockstep o o' L

variable [Scalar α] [Space α V]

theorem lockstep_openAt {o o' : Oracle α V M} {L : Ledger α V → Ledger α V → Prop}
    (hvalue : ∀ x, Downhill.Lockstep L (o.value x) (o'.value x))
    (hgradient : ∀ x, Downhill.Lockstep L (o.gradient x) (o'.gradient x)) (x : V) :
    Downhill.Lockstep L (openAt o x) (openAt o' x) :=
  .ite (.bind (hvalue x) fun _ => .bind (hgradient x) fun _ => .ite (.pure _) (.pure _)) (.pure _)

namespace Lockstep
variable {d : Descent σ ρ α V M} {p : Problem α V M} {o o' : Oracle α V M} {S : σ → σ → Prop}
  {L : Ledger α V → Ledger α V → Prop} (h : d.Lockstep p o o' S L)
include h

open Act

omit [Scalar α] [Space α V] in
theorem lockstep_remark (r : Remark α) :
    Downhill.Lockstep (Beside (Flow.Matches S) L)
      (Act.remark r : Act (Flow σ ρ α V) α V Unit) (Act.remark r) :=
  lockstep_ofEval (h.remark r)

omit [Scalar α] [Space α V] in
theorem lockstep_reset :
    Downhill.Lockstep (Beside (Flow.Matches S) L) d.reset (d.on p).reset :=
  .bind (lockstep_note _) fun _ => lockstep_ask h.strategy.reset

theorem lockstep_propose (t : Progress α V) :
    Downhill.Lockstep (Beside (Flow.Matches S) L) (d.propose o t) ((d.on p).propose o' t) := by
  refine .bind (lockstep_note _) fun _ =>
    .bind (lockstep_guarded (lockstep_ask (h.strategy.compute _))) fun r => ?_
  cases r with
  | error f => exact .pure _
  | ok direction =>
    refine .ite (.bind (lockstep_ofExcept _) fun slope => .ite (.pure _) ?_) (.pure _)
    exact .bind (h.lockstep_remark _) fun _ => .bind h.lockstep_reset fun _ => .pure _

omit [Scalar α] [Space α V] in
theorem lockstep_searchAlong (x : Iterate α V) (direction : V) :
    Downhill.Lockstep (Beside (Flow.Matches S) L) (d.searchAlong o x direction)
      ((d.on p).searchAlong o' x direction) :=
  .bind (lockstep_note _) fun _ => .bind (lockstep_ask (h.strategy.initialStep _ _)) fun asked =>
    .bind (lockstep_note _) fun _ => lockstep_look (h.search _ asked)

omit [Scalar α] in
theorem lockstep_explore (t : Progress α V) (direction : V) :
    Downhill.Lockstep (Beside (Flow.Matches S) L) (d.explore o t direction)
      ((d.on p).explore o' t direction) := by
  refine .bind (h.lockstep_searchAlong _ _) fun step => .ite (.pure _) ?_
  refine .bind (h.lockstep_remark _) fun _ => .bind h.lockstep_reset fun _ => ?_
  exact .bind (h.lockstep_searchAlong _ _) fun _ => .pure _

omit [Scalar α] [Space α V] in
theorem lockstep_converged (x y : Iterate α V) :
    Downhill.Lockstep (Beside (Flow.Matches S) L) (d.converged x y) ((d.on p).converged x y) := by
  rw [converged, converged, show (d.on p).problem.converged = _ from h.test]
  exact lockstep_ofExcept _

theorem lockstep_take (t : Progress α V) (direction : V) (step : Step α V) :
    Downhill.Lockstep (Beside (Flow.Matches S) L) (d.take t direction step)
      ((d.on p).take t direction step) := by
  refine .ite (.bind (lockstep_ofExcept _) fun _ => .bind (lockstep_ofExcept _) fun _ => ?_)
    (.pure _)
  refine .bind (lockstep_note _) fun _ =>
    .bind (lockstep_ask (h.strategy.update _ _ _ _ _)) fun _ => ?_
  refine .bind (h.lockstep_remark _) fun _ =>
    .bind (lockstep_modifyState fun _ _ h => ?_) fun _ => ?_
  · exact ⟨h.strategy, h.search, congrArg (·.push step.reached) h.trace, h.calls⟩
  · exact .bind (h.lockstep_converged _ _) fun _ => .ite (.pure _) (.pure _)

theorem lockstep_iterate (t : Progress α V) :
    Downhill.Lockstep (Beside (Flow.Matches S) L) (d.iterate o t) ((d.on p).iterate o' t) := by
  refine .bind (h.lockstep_propose t) fun r => ?_
  cases r with
  | error message => exact .pure _
  | ok direction =>
    refine .bind (lockstep_guarded (h.lockstep_explore t direction)) fun r => ?_
    rcases r with f | ⟨direction, step⟩
    · exact .pure _
    · exact .ite (h.lockstep_take t direction step) (.pure _)

theorem lockstep_pursue (start : Iterate α V) :
    Downhill.Lockstep (Beside (Flow.Matches S) L) (d.pursue o start)
      ((d.on p).pursue o' start) := by
  refine .bind (h.lockstep_converged _ _) fun done => .ite (.pure _) ?_
  refine .rounds h.lockstep_iterate _ _ fun r => ?_
  cases r <;> exact .pure _

end Lockstep

variable [Curved α V M] {d : Descent σ ρ α V M} {p : Problem α V M} {S : σ → σ → Prop}
  {L : Ledger α V → Ledger α V → Prop} {x : V}

/-- Runs in lockstep are closed with the same result, whatever the states of the strategy were
before they began. -/
theorem exists_close_on
    (h : d.Lockstep p (d.work (Space.size x)) ((d.on p).work (Space.size x)) S L)
    (hvalue : ∀ y, Downhill.Lockstep L ((d.work (Space.size x)).value y)
      (((d.on p).work (Space.size x)).value y))
    (hgradient : ∀ y, Downhill.Lockstep L ((d.work (Space.size x)).gradient y)
      (((d.on p).work (Space.size x)).gradient y)) (hL : L {} {}) (state state' : σ) (search : ρ) :
    ∃ r flow flow' l l', d.run x state search = d.close x r flow l ∧
      (d.on p).run x state' search = (d.on p).close x r flow' l' ∧
      Flow.Matches (fun _ _ => True) flow flow' ∧ L l l' := by
  obtain ⟨r, l, l', hopen, hopen', hl⟩ := (lockstep_openAt hvalue hgradient x).exists_ends hL
  have hstart : (openAt (d.work (Space.size x)) x).start = (r, l) := hopen
  have hstart' : (openAt ((d.on p).work (Space.size x)) x).start = (r, l') := hopen'
  have hbegun : ∀ {R : σ → σ → Prop} (st st' : σ) (calls : Array (Call α V)), R st st' →
      Flow.Matches R (Flow.start st search calls) (.start st' search calls) :=
    fun _ _ _ hst => ⟨hst, rfl, rfl, rfl⟩
  rcases r with f | start | stop
  · refine ⟨.error f, _, _, l, l', ?_, ?_, hbegun state state' #[] trivial, hl⟩
    · simp only [run, hstart]
    · simp only [run, hstart']
  · obtain ⟨f, hf, hf'⟩ | ⟨prepared, prepared', hprepare, hprepare', hS⟩ :=
      h.strategy.prepare start state state'
    · refine ⟨.error f, _, _, l, l', ?_, ?_, hbegun state state' #[.prepare] trivial, hl⟩
      · simp only [run, hstart, hf]
      · simp only [run, hstart', show (d.on p).strategy.prepare _ start state' = .error f from hf']
    · have hready : Beside (Flow.Matches S) L (.start prepared search #[.prepare], l)
          (.start prepared' search #[.prepare], l') := ⟨hbegun _ _ #[.prepare] hS, hl⟩
      obtain ⟨r, t, t', hpursue, hpursue', ⟨-, hsearch, htrace, hcalls⟩, hl⟩ :=
        (h.lockstep_pursue start).exists_ends hready
      refine ⟨r, t.1, t'.1, t.2, t'.2, ?_, ?_, ⟨trivial, hsearch, htrace, hcalls⟩, hl⟩
      · simp only [run, hstart, hprepare,
          show (d.pursue (d.work _) start).perform _ l = _ from hpursue]
      · simp only [run, hstart', show (d.on p).strategy.prepare _ start state' = _ from hprepare',
          show ((d.on p).pursue ((d.on p).work _) start).perform _ l' = _ from hpursue']
  · refine ⟨.ok stop, _, _, l, l', ?_, ?_, hbegun state state' #[] trivial, hl⟩
    · simp only [run, hstart]
    · simp only [run, hstart']

end Descent

end Downhill
