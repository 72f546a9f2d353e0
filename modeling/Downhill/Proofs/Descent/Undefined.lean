import Downhill.Proofs.Descent.Answers
import Downhill.Proofs.Descent.Coherence
import Downhill.Proofs.LineSearch.Undefined

/-! Runs that meet something that is not finite. A numerical fault of a search, the first one of an
iteration or the one that repeats it, ends the run with a status, at the last iterate that was
accepted. Every other fault that a run raises has another cause. -/
namespace Downhill
variable {σ ρ α V M β : Type} [Scalar α] [Space α V]

namespace Phase

/-- Where a numerical fault did not break the iteration, no call was answered with one. -/
theorem answer_ne_of_along {y : Iterate α V} {events : List (Event α V)} {p : Phase α V}
    (hobeys : (ready y).Obeys events) (halong : (ready y).along events = p)
    (hp : ∀ x f, p ≠ broken x (.numerical f)) {e : Event α V} (he : e ∈ events)
    (f : NumericalFault α) : e.answer ≠ .error (.numerical f) := by
  intro hf
  obtain ⟨before, rest, rfl⟩ := List.append_of_mem he
  obtain rfl := eq_nil_of_fault hobeys hf
  rw [along_of_fault hf] at halong
  exact hp _ f halong.symm

end Phase

theorem Ensures.and {ε τ : Type} {P : τ → Prop} {c : ExceptT ε (StateM τ) β}
    {Q Q' : Except ε β → τ → Prop} (h : Ensures P c Q) (h' : Ensures P c Q') :
    Ensures P c fun r t => Q r t ∧ Q' r t := fun t ht => ⟨h t ht, h' t ht⟩

omit [Scalar α] [Space α V] in
/-- A fault that leaves a guarded part is not numerical. -/
theorem ensures_guarded_unnumerical {P : σ × Ledger α V → Prop} (c : Act σ α V β) :
    Ensures P (guarded c) fun r _ => Unnumerical r := by
  intro t _ f hf
  have hrun : (guarded c).run.run t = _ := perform_guarded c t.1 t.2
  rw [hrun] at hf
  rcases hr : c.perform t.1 t.2 with ⟨f' | b, t'⟩ <;> rw [hr] at hf
  · cases f' <;> cases hf <;> rfl
  · cases hf

namespace Scene
variable {s : Scene σ ρ α V M} {p : Phase α V} {met path : List (Iterate α V)}
  {t : Flow σ ρ α V × Ledger α V}

/-- No search so far ended with a numerical fault. -/
def Unshaken (s : Scene σ ρ α V M) (t : Flow σ ρ α V × Ledger α V) : Prop :=
  ∃ events p met path, s.Led events p met path t ∧
    ∀ e ∈ events, e.query.isSearch = true → ∀ f, e.answer ≠ .error (.numerical f)

/-- A fault comes where no search ended with a numerical one. -/
def Spared (s : Scene σ ρ α V M) : Except (Fault α) β → Flow σ ρ α V × Ledger α V → Prop
  | .ok _, _ => True
  | .error _, t => s.Unshaken t

theorem Stands.unshaken (h : s.Stands p met path t) (hp : ∀ x f, p ≠ .broken x (.numerical f)) :
    s.Unshaken t := by
  obtain ⟨events, hled⟩ := h
  exact ⟨events, p, met, path, hled, fun e he _ f =>
    Phase.answer_ne_of_along hled.obeys hled.along hp he f⟩

theorem Stands.unshaken_of_due {q : Query α V} (h : s.Stands p met path t) (hq : p.due = some q) :
    s.Unshaken t := by
  refine h.unshaken ?_
  rintro x f rfl
  cases hq

theorem Stands.unshaken_of_broken {x : Iterate α V} {f : Fault α}
    (h : s.Stands (.broken x f) met path t) (hf : f.isNumerical = false) : s.Unshaken t := by
  refine h.unshaken ?_
  rintro _ g ⟨⟩
  cases hf

/-- A call that is no search. -/
theorem ensures_serve_spared {q : Query α V} (hq : p.due = some q) (hsearch : q.isSearch = false) :
    Ensures (s.Entered p path q.call) (s.descent.serve s.oracle q) s.Spared := by
  rintro _ ⟨f, l, ⟨events, hled⟩, rfl⟩
  generalize hr : (s.descent.serve s.oracle q).run.run
    ({ f with calls := f.calls.push q.call }, l) = r
  have hcall := hled.call hq r.1 (t := r.2) hr
  have hearlier : ∀ e ∈ events, ∀ g, e.answer ≠ .error (.numerical g) := fun e he g =>
    Phase.answer_ne_of_along hled.obeys hled.along (by rintro x g rfl; cases hq) he g
  obtain ⟨e | a, t⟩ := r
  · refine ⟨_, _, _, _, hcall, fun e' he' hes g => ?_⟩
    rcases List.mem_append.mp he' with he' | he'
    · exact hearlier e' he' g
    · obtain rfl := List.mem_singleton.mp he'
      cases hsearch.symm.trans hes
  · trivial

theorem ensures_reset_spared (hp : p.due = some .reset) :
    Ensures (s.Noted p path) s.descent.reset s.Spared :=
  .bind (ensures_enter .reset) (fun _ => .of_fact fun _ => ensures_serve_spared hp rfl)
    fun _ _ ht => by cases ht.1

theorem ensures_propose_spared (u : Progress α V) :
    Ensures (s.Noted (.ready u.current) path) (s.descent.propose s.oracle u) s.Spared := by
  refine .bind (ensures_enter .compute) (fun _ => .of_fact fun _ => ?_) fun _ _ ht => by cases ht.1
  have hserve : Ensures (s.Entered (.ready u.current) path .compute) _ _ :=
    ensures_serve (.compute u.current) rfl fun r => by cases r <;> rfl
  refine .bind (.and (ensures_guarded hserve) (ensures_guarded_unnumerical _)) (fun r => ?_)
    fun f τ hτ => hτ.1.unshaken_of_broken (hτ.2 f rfl)
  cases r with
  | error f => exact .pure fun _ _ => trivial
  | ok direction =>
    refine .mono (?_ : Ensures (s.Noted (.proposed u.current direction) path) _ _)
      (fun _ hτ => hτ.1) fun _ _ h => h
    refine .ite (fun hfin => ?_) fun _ => .pure fun _ _ => trivial
    refine .bind (ensures_ofExcept _) (fun slope => .of_fact fun hslope => ?_)
      fun _ τ hτ => hτ.2.unshaken (by rintro _ _ ⟨⟩)
    obtain rfl := Space.eq_inner_of_dot? hslope.symm
    refine .ite (fun _ => .pure fun _ _ => trivial) fun hneg => ?_
    have hdue : (Phase.proposed u.current direction).due = some .reset := by
      simp only [Phase.due, if_pos hfin, if_neg hneg]
    refine .bind (ensures_remark _) (fun _ => .of_fact fun _ => ?_) fun _ _ ht => by cases ht.1
    exact .bind (ensures_reset_spared hdue) (fun _ => .pure fun _ _ => trivial) fun _ _ h => h

theorem ensures_take_spared (u : Progress α V) {direction : V} {again : Bool} {step : Step α V}
    (hok : step.success = true) :
    Ensures (s.Noted (.searched u.current direction again step) path)
      (s.descent.take u direction step) s.Spared := by
  refine .ite (fun hfin => ?_) fun _ => .pure fun _ _ => trivial
  have hdue : (Phase.searched u.current direction again step).due = some (.update
      (step.reached.point - u.current.point) (step.reached.gradient - u.current.gradient)
      step.reached.gradient step.alpha direction) := by
    simp only [Phase.due, if_pos hok, if_pos hfin]
  refine .bind (ensures_ofExcept _) (fun v => .of_fact fun hv => ?_)
    fun _ τ hτ => hτ.2.unshaken_of_due hdue
  obtain rfl := Space.eq_sub_of_difference? hv.symm
  refine .bind (ensures_ofExcept _) (fun w => .of_fact fun hw => ?_)
    fun _ τ hτ => hτ.2.unshaken_of_due hdue
  obtain rfl := Space.eq_sub_of_difference? hw.symm
  refine .bind (ensures_enter _) (fun _ => .of_fact fun _ => ?_) fun _ _ ht => by cases ht.1
  refine .bind (.and (ensures_update hdue fun _ => rfl) (ensures_serve_spared hdue rfl))
    (fun _ => ?_) fun _ _ hτ => hτ.2
  refine .mono (?_ : Ensures (s.Stands (.ready step.reached) (path ++ [step.reached]) path) _ _)
    (fun _ hτ => hτ.1) fun _ _ h => h
  refine .bind (ensures_remark _) (fun _ => .of_fact fun _ => ?_) fun _ _ ht => by cases ht.1
  refine .bind (ensures_keep step.reached) (fun _ => .of_fact fun _ => ?_)
    fun _ _ ht => by cases ht.1
  refine .bind (ensures_ofExcept _) (fun done => .of_fact fun _ => ?_)
    fun _ τ hτ => hτ.2.unshaken_of_due rfl
  cases done <;> exact .pure fun _ _ => trivial

theorem ensures_iterate_spared (u : Progress α V) :
    Ensures (s.Noted (.ready u.current) path) (s.descent.iterate s.oracle u) s.Spared := by
  refine .bind (.and (ensures_propose u) (ensures_propose_spared u)) (fun r => ?_)
    fun _ _ hτ => hτ.2
  cases r with
  | error message => exact .pure fun _ _ => trivial
  | ok direction =>
    rintro τ ⟨⟨p, hp, hτ⟩, -⟩
    refine (?_ : Ensures (s.Noted p path) _ _) τ hτ
    refine .bind (.and (ensures_guarded (ensures_explore u hp)) (ensures_guarded_unnumerical _))
      (fun r => ?_) fun f τ hτ => hτ.1.unshaken_of_broken (hτ.2 f rfl)
    rcases r with f | ⟨direction, step⟩
    · exact .pure fun _ _ => trivial
    · rintro τ ⟨⟨p, ⟨again, rfl, -⟩, hτ⟩, -⟩
      refine (?_ : Ensures (s.Noted _ path) _ _) τ hτ
      exact .ite (fun hok => ensures_take_spared u hok) fun _ => .pure fun _ _ => trivial

/-- The run is ready for an iteration. -/
def Going (s : Scene σ ρ α V M) (u : Progress α V) (t : Flow σ ρ α V × Ledger α V) : Prop :=
  ∃ path, s.Noted (.ready u.current) path t

theorem ensures_going (u : Progress α V) :
    Ensures (s.Going u) (s.descent.iterate s.oracle u)
      (Rounded s.Going (fun _ _ => True) fun _ => s.Unshaken) := by
  rintro τ ⟨path, hτ⟩
  have hturned := ensures_iterate u τ hτ
  have hspared := ensures_iterate_spared u τ hτ
  generalize (s.descent.iterate s.oracle u).run.run τ = r at hturned hspared ⊢
  obtain ⟨f | next | stop, t⟩ := r
  · exact hspared
  · exact ⟨_, hturned.2.2⟩
  · trivial

theorem ensures_pursue_spared :
    Ensures (s.Noted (.ready s.start) []) (s.descent.pursue s.oracle s.start) s.Spared := by
  refine .bind (ensures_ofExcept _) (fun done => .of_fact fun _ => ?_)
    fun _ τ hτ => hτ.2.unshaken_of_due rfl
  refine .ite (fun _ => .pure fun _ _ => trivial) fun _ => ?_
  have hbegun : ∀ τ, s.Noted (.ready s.start) [] τ → s.Going ⟨s.start, 0⟩ τ :=
    fun τ hτ => ⟨[], hτ⟩
  refine .bind (.mono (.upTo ensures_going _ _) hbegun fun _ _ h => h) (fun r => ?_)
    fun _ _ h => h
  cases r <;> exact .pure fun _ _ => trivial

end Scene

namespace Descent
variable [Curved α V M] {d : Descent σ ρ α V M} {x : V} {start : Iterate α V} {state : σ}
  {search : ρ}

/-- A run from an open start refused to begin, or it conversed; and a numerical fault of a search
came to an outcome. -/
theorem run_unshaken (hstart : d.opened x = .ok (.inl start)) :
    let record := d.run x state search
    (∃ f, d.strategy.prepare (d.work (Space.size x)) start state = .error f ∧
      record.result = .error f) ∨
    ∃ events ledger, d.Converses x start state search events record.flow ledger ∧
      ∀ e ∈ events, e.query.isSearch = true → ∀ f, e.answer = .error (.numerical f) →
        ∃ stop, d.Ending start record.flow.trace.toList ((Phase.ready start).along events) stop ∧
          (Phase.ready start).accepted events = record.flow.trace.toList ∧
          record.result = .ok (d.outcome x record.flow.trace ledger stop) := by
  intro record
  obtain ⟨f, l, hrefused, hrun⟩ | ⟨prepared, r, t, hprepare, hpursue, hrun⟩ :=
    run_of_opened state search hstart
  · exact .inl ⟨f, hrefused, by rw [show record = _ from hrun]; rfl⟩
  let s : Scene σ ρ α V M := ⟨d, d.work (Space.size x),
    (.start prepared search #[.prepare], (openAt (d.work (Space.size x)) x).start.2), start⟩
  have hbegun : s.Noted (.ready s.start) [] s.begun := ⟨[], .begin, trivial, rfl, rfl, rfl⟩
  have hover := Scene.ensures_pursue (s := s) s.begun hbegun
  have hspared := Scene.ensures_pursue_spared (s := s) s.begun hbegun
  have hrecord : record = d.close x r t.1 t.2 := hrun
  have hconverses : ∀ {events p met path}, s.Led events p met path t →
      d.Converses x start state search events t.1 t.2 := fun hled =>
    ⟨hled.obeys, prepared, hprepare, hled.transcript⟩
  rw [show (d.pursue (d.work (Space.size x)) start).run.run s.begun = (r, t) from hpursue]
    at hover hspared
  rw [hrecord, flow_close]
  right
  cases r with
  | error f =>
    obtain ⟨events, p, met, path, hled, hnone⟩ := hspared
    exact ⟨events, t.2, hconverses hled, fun e he hes g hg => absurd hg (hnone e he hes g)⟩
  | ok stop =>
    obtain ⟨p, path, hending, events, hled⟩ := hover
    refine ⟨events, t.2, hconverses hled, fun e he hes g hg => ⟨stop, ?_, ?_, rfl⟩⟩
    · rw [hled.along, hled.trace]
      exact hending
    · rw [hled.accepted, hled.trace]

/-- A search in a run makes whole trials, and it heeds the answers. -/
theorem Transcript.exists_trials {n : ℕ} {σ : Type} {d : Descent σ Unit α (Vector α n) M}
    {o : Oracle α (Vector α n) M} (ho : o.Quiet) {s : LineSearch α} (hd : d.search = s.machine)
    {begun t : Flow σ Unit α (Vector α n) × Ledger α (Vector α n)}
    {before rest : List (Event α (Vector α n))} {ray : Ray α (Vector α n)} {asked : Option α}
    {answer : Except (Fault α) (Step α (Vector α n))}
    (h : d.Transcript o.recorded begun (before ++ ⟨.search ray asked, answer⟩ :: rest) t) :
    ∃ f l u trials, d.Transcript o.recorded begun before (f, l) ∧
      (d.serve o.recorded (.search ray asked)).perform
        { f with calls := f.calls.push (.search ray.direction) } l = (answer, u) ∧
      u.2.requests.toList = l.requests.toList ++ trials.flatMap (Trial.asks ray) ∧
      ray.Heeds o trials answer := by
  obtain ⟨f, l, u, hbefore, hu⟩ := h.exists_before rfl
  have hsearch : (s.search o.recorded ray asked).perform l = (answer, u.2) := by
    refine Prod.ext (search_of_serve hd (congrArg Prod.fst hu)) ?_
    have hledger : _ = u.2 := congrArg (fun r => r.2.2) hu
    rwa [serve, hd] at hledger
  obtain ⟨trials, hrequests, hheeds⟩ := s.exists_trials ho ray asked hsearch
  exact ⟨f, l, u, trials, hbefore, hu, hrequests, hheeds⟩

omit [Curved α V M] in
/-- How a run ends in which a call was answered with a numerical fault. -/
theorem Ending.of_fault {path : List (Iterate α V)} {events : List (Event α V)} {stop : Stop α V}
    (h : d.Ending start path ((Phase.ready start).along events) stop)
    (hobeys : (Phase.ready start).Obeys events)
    (haccepted : (Phase.ready start).accepted events = path) {e : Event α V} (he : e ∈ events)
    {f : NumericalFault α} (hf : e.answer = .error (.numerical f)) :
    stop = ⟨.numericalError, .numerical f, path.length, path.getLastD start⟩ := by
  have hfinal : stop.final = path.getLastD start := by
    rw [h.final_eq, Phase.iterate_along, haccepted]
    rfl
  obtain ⟨before, rest, rfl⟩ := List.append_of_mem he
  obtain rfl := Phase.eq_nil_of_fault hobeys hf
  rw [Phase.along_of_fault hf] at h
  obtain ⟨-, hready⟩ | hclosing := h.stopped
  · cases hready
  obtain ⟨hstatus, hmessage⟩ : .numericalError = stop.status ∧ .numerical f = stop.message :=
    Prod.mk.inj (Option.some.inj hclosing)
  have hiterations := h.iterations_eq
  rw [← hmessage] at hiterations
  obtain ⟨status, message, iterations, final⟩ := stop
  subst hstatus hmessage hiterations hfinal
  rfl

/-- What becomes of answers that are not finite. Every question of a search is one of its trials,
and the search heeds the answers, for any problem, any parameters and any ray; so does every search
of a run from an open start, with any strategy and config. And a numerical fault of a search, be it
the first of its iteration or the one that repeats it, leads to an outcome, which reports that fault
and the iterate that was accepted last. -/
theorem searches_heed {n : ℕ} {σ M : Type} [Curved α (Vector α n) M] (s : LineSearch α) :
    (∀ (o : Oracle α (Vector α n) M), o.Quiet → ∀ ray asked l result l',
      (s.search o.recorded ray asked).perform l = (result, l') → ∃ trials : List (Trial α),
        l'.requests.toList = l.requests.toList ++ trials.flatMap (Trial.asks ray) ∧
          ray.Heeds o trials result) ∧
    ∀ (d : Descent σ Unit α (Vector α n) M) x start state, d.search = s.machine →
      d.opened x = .ok (.inl start) →
      let record := d.run x state ()
      let path := record.flow.trace.toList
      let last := path.getLastD start
      (∃ f, d.strategy.prepare (d.work n) start state = .error f ∧ record.result = .error f) ∨
      ∃ events ledger, d.Converses x start state () events record.flow ledger ∧
        (∀ before rest ray asked answer, events = before ++ ⟨.search ray asked, answer⟩ :: rest →
          ∃ f l u, ∃ trials : List (Trial α), d.Converses x start state () before f l ∧
            (d.serve (d.work n) (.search ray asked)).perform
              { f with calls := f.calls.push (.search ray.direction) } l = (answer, u) ∧
            u.2.requests.toList = l.requests.toList ++ trials.flatMap (Trial.asks ray) ∧
            ray.Heeds (d.problem.differentiable n d.strategy.needsHessian) trials answer) ∧
        ∀ ray asked f, ⟨.search ray asked, .error (.numerical f)⟩ ∈ events →
          path = (Phase.ready start).accepted events ∧
          ∃ outcome, record.result = .ok outcome ∧ outcome.status = .numericalError ∧
            outcome.message = .numerical f ∧ outcome.point = last.point ∧
            outcome.value = last.value ∧ outcome.gradientNorm = Space.norm last.gradient ∧
            outcome.iterations = path.length := by
  refine ⟨fun o ho ray asked l result l' h => s.exists_trials ho ray asked h, ?_⟩
  intro d x start state hd hstart record path last
  have ho := d.problem.quiet_differentiable n d.strategy.needsHessian
  obtain hrefused | ⟨events, ledger, hconverses, hunshaken⟩ := run_unshaken hstart
  · exact .inl hrefused
  refine .inr ⟨events, ledger, hconverses, ?_, fun ray asked f he => ?_⟩
  · rintro before rest ray asked answer rfl
    obtain ⟨hobeys, prepared, hprepare, htranscript⟩ := hconverses
    obtain ⟨f, l, u, trials, hbefore, hu, hrequests, hheeds⟩ := htranscript.exists_trials ho hd
    rw [Phase.obeys_append] at hobeys
    exact ⟨f, l, u, trials, ⟨hobeys.1, prepared, hprepare, hbefore⟩, hu, hrequests, hheeds⟩
  · obtain ⟨stop, hending, haccepted, hresult⟩ := hunshaken _ he rfl f rfl
    obtain rfl := hending.of_fault hconverses.1 haccepted he rfl
    exact ⟨haccepted.symm, _, hresult, rfl, rfl, rfl, rfl, rfl, rfl⟩

/-- A value that is missing from `2` on. The search along `(5, 0)` asks for one there and ends; the
run has taken a step to `(1, 0)` before, and reports it. -/
theorem searches_heed_hole :
    let p : Problem (Exact ℚ) (Vector (Exact ℚ) 2) (Matrix (Exact ℚ) 2) :=
      ⟨"hole", none, fun v => .ok (if first v < 2 then -first v else .undefined),
        some fun _ => .ok #v[-1, 0], none, gradientTest⟩
    let s : LineSearch (Exact ℚ) := .backtracking .standard
    let ray : Ray (Exact ℚ) (Vector (Exact ℚ) 2) := ⟨⟨#v[0, 0], 0, #v[-1, 0]⟩, #v[5, 0]⟩
    let d : Descent Script.Tally Unit (Exact ℚ) (Vector (Exact ℚ) 2) (Matrix (Exact ℚ) 2) :=
      ⟨p, Script.Directions.strategy
          ⟨"fixed", false, [.along #v[1, 0], .along #v[5, 0]], [none]⟩, s.machine, .standard⟩
    let call := (s.search p.oracle.recorded ray none).perform {}
    let record := d.run #v[0, 0] {} ()
    (∃ trials : List (Trial (Exact ℚ)),
      call.2.requests.toList = trials.flatMap (Trial.asks ray) ∧
        ∃ t ∈ trials, t.Undefined p.oracle ray) ∧
    ∃ events ledger, d.Converses #v[0, 0] ⟨#v[0, 0], 0, #v[-1, 0]⟩ {} () events record.flow ledger ∧
      ∀ ray asked f, ⟨.search ray asked, .error (.numerical f)⟩ ∈ events →
        ∃ outcome, record.result = .ok outcome ∧ outcome.status = .numericalError ∧
          outcome.point = #v[1, 0] := by
  intro p s ray d call record
  obtain ⟨hcalls, hruns⟩ := searches_heed (σ := Script.Tally) (M := Matrix (Exact ℚ) 2) (n := 2) s
  have hfault : call.1 = .error (.numerical (.scalar (.trial "objective" 1) .undefined)) := by
    decide +kernel
  have hpath : record.flow.trace.toList = [⟨#v[1, 0], -1, #v[-1, 0]⟩] := by decide +kernel
  have hstart : d.opened #v[0, 0] = .ok (.inl ⟨#v[0, 0], 0, #v[-1, 0]⟩) := by decide +kernel
  refine ⟨?_, ?_⟩
  · obtain ⟨trials, hrequests, hheeds⟩ :=
      hcalls p.oracle p.quiet_oracle ray none {} call.1 call.2 rfl
    have hraises : ∀ t ∈ trials, ∀ e, ¬ t.Raises p.oracle ray e := by
      rintro t - e ⟨q, -, hq⟩
      cases q <;> cases hq
    obtain ⟨t, ht, hundefined, -⟩ := hheeds.numerical_iff.mp ⟨⟨_, hfault⟩, hraises⟩
    exact ⟨trials, hrequests, t, ht, hundefined⟩
  · obtain ⟨f, hrefused, -⟩ | ⟨events, ledger, hconverses, -, houtcome⟩ :=
      hruns d #v[0, 0] _ {} rfl hstart
    · cases hrefused
    refine ⟨events, ledger, hconverses, fun ray asked f he => ?_⟩
    obtain ⟨-, outcome, hresult, hstatus, -, hpoint, -⟩ := houtcome ray asked f he
    refine ⟨outcome, hresult, hstatus, ?_⟩
    rw [hpoint, hpath]
    rfl

/-- The bracketing search asks for value and gradient before it looks at either, so what the problem
raises for the gradient hides a value that is not finite. -/
theorem bracketing_hides_undefined :
    let p : Problem (Exact ℚ) (Vector (Exact ℚ) 1) (Matrix (Exact ℚ) 1) :=
      ⟨"Bare", none, fun _ => .ok .undefined, none, none, gradientTest⟩
    let s : LineSearch (Exact ℚ) := .moreThuente (.standard 0.9)
    let ray : Ray (Exact ℚ) (Vector (Exact ℚ) 1) := ⟨⟨#v[1], 1, #v[1]⟩, #v[-1]⟩
    let call := (s.search p.oracle.recorded ray none).perform {}
    let trials : List (Trial (Exact ℚ)) := [⟨1, true⟩]
    s.check = .ok () ∧ Space.inner ray.start.gradient ray.direction < 0 ∧
      call.2.requests.toList = trials.flatMap (Trial.asks ray) ∧
      call.1 = .error (.noGradient "Bare") ∧
      ¬ ((∃ c, call.1 = .error (.numerical c)) ↔ ∃ t ∈ trials, t.Undefined p.oracle ray) := by
  intro p s ray call trials
  have hraised : call.1 = .error (.noGradient "Bare") := by decide +kernel
  have hvalue : p.oracle.finiteAt (.value (ray.along 1)) = .ok false := by decide +kernel
  refine ⟨by decide +kernel, by decide +kernel, by decide +kernel, hraised, fun hiff => ?_⟩
  obtain ⟨c, hc⟩ := hiff.mpr ⟨⟨1, true⟩, by simp [trials], _, List.mem_cons_self, hvalue⟩
  cases hraised.symm.trans hc

end Descent

end Downhill
