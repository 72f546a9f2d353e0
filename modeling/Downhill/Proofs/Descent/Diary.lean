import Downhill.Descent.Script
import Downhill.Proofs.Descent.Account
import Downhill.Proofs.Descent.Steady
import Downhill.Proofs.Logging.Lines

/-! The log of a run. The loop warns before every reset of its strategy, reports every step that it
accepts, and closes with the result; so its remarks can be told from what it did, one for one and in
the same order. Strategies and searches have loggers of their own, and what stands under the logger
of the loop was said by the loop. -/
namespace Downhill
variable {σ ρ α V M β : Type}

/-- A warning that steepest descent takes over, after `k` steps. -/
inductive Remark.Warns (name : String) (k : ℕ) : Remark α → Prop
  | notDescending : Warns name k (.notDescending name k)
  | retrying (message : SearchMessage α) : Warns name k (.retrying name k message)

theorem Remark.Warns.level_eq {name : String} {k : ℕ} {r : Remark α} (h : r.Warns name k) :
    r.level = Level.warning := by cases h <;> rfl

theorem Remark.Warns.source_eq {name : String} {k : ℕ} {r : Remark α} (h : r.Warns name k) :
    r.source = .loop := by cases h <;> rfl

def Call.isReset : Call α V → Bool
  | .reset => true
  | _ => false

theorem Call.filterMap_taken?_snoc (calls : List (Call α V)) {c : Call α V} (hc : c.taken? = none) :
    (calls ++ [c]).filterMap taken? = calls.filterMap taken? := by simp [hc]

theorem append_cons_eq_concat {β : Type} {before after l : List β} {b c : β}
    (h : before ++ b :: after = l ++ [c]) :
    (before = l ∧ b = c) ∨ ∃ rest, before ++ b :: rest = l := by
  obtain rfl | ⟨rest, a, rfl⟩ := after.eq_nil_or_concat
  · obtain ⟨hl, hb⟩ := List.append_inj' h rfl
    exact .inl ⟨hl, List.singleton_inj.mp hb⟩
  · rw [List.concat_eq_append, ← List.cons_append, ← List.append_assoc] at h
    exact .inr ⟨rest, (List.append_inj' h rfl).1⟩

section Narrated
variable [Scalar α] [Space α V]

/-- Calls of a loop, the iterates that it accepted and what it said, in the order in which they
came about. -/
inductive Narrated (name : String) : List (Call α V) → List (Iterate α V) → List (Remark α) → Prop
  | begin : Narrated name [] [] []
  /-- Calls that nothing is said about. -/
  | call {calls : List (Call α V)} {path : List (Iterate α V)} {said : List (Remark α)}
      (h : Narrated name calls path said) (c : Call α V) (hreset : c.isReset = false)
      (htaken : c.taken? = none) : Narrated name (calls ++ [c]) path said
  | warned {calls : List (Call α V)} {path : List (Iterate α V)} {said : List (Remark α)}
      (h : Narrated name calls path said) {w : Remark α} (hw : w.Warns name path.length) :
      Narrated name (calls ++ [.reset]) path (said ++ [w])
  | advanced {calls : List (Call α V)} {path : List (Iterate α V)} {said : List (Remark α)}
      (h : Narrated name calls path said) (next : Iterate α V) (s y : V) (alpha : α)
      (direction : V) :
      Narrated name (calls ++ [.update s y next.gradient alpha direction]) (path ++ [next])
        (said ++ [.iterated name (path.length + 1) next.value (Space.norm next.gradient) alpha])

namespace Narrated
variable {name : String} {calls : List (Call α V)} {path : List (Iterate α V)}
  {said : List (Remark α)}

theorem level_eq (h : Narrated name calls path said) :
    ∀ r ∈ said, r.level = Level.debug ∨ r.level = Level.warning := by
  induction h with
  | begin => exact fun r hr => absurd hr List.not_mem_nil
  | call h c _ _ ih => exact ih
  | warned h hw ih =>
    exact List.forall_mem_append.mpr ⟨ih, List.forall_mem_singleton.mpr (.inr hw.level_eq)⟩
  | advanced h next s y alpha direction ih =>
    exact List.forall_mem_append.mpr ⟨ih, List.forall_mem_singleton.mpr (.inl rfl)⟩

theorem length_taken (h : Narrated name calls path said) :
    (calls.filterMap Call.taken?).length = path.length := by
  induction h with
  | begin => rfl
  | call h c _ htaken ih => rwa [Call.filterMap_taken?_snoc _ htaken]
  | warned h hw ih => rwa [Call.filterMap_taken?_snoc _ rfl]
  | advanced h next s y alpha direction ih => simpa [Call.taken?] using ih

/-- Every reset was announced by a warning. -/
theorem length_warnings (h : Narrated name calls path said) :
    (said.filter (·.level = Level.warning)).length = calls.countP Call.isReset := by
  induction h with
  | begin => rfl
  | call h c hreset _ ih => simpa [hreset] using ih
  | warned h hw ih => simpa [hw.level_eq, Call.isReset] using ih
  | advanced h next s y alpha direction ih =>
    simpa [Call.isReset, Remark.level, Level.warning] using ih

/-- Every step was reported, with the iterate that it led to and with its length. -/
theorem details_eq (h : Narrated name calls path said) :
    said.filter (·.level = Level.debug) =
      (path.zip (calls.filterMap Call.taken?)).mapIdx fun k p =>
        .iterated name (k + 1) p.1.value (Space.norm p.1.gradient) p.2.1 := by
  induction h with
  | begin => rfl
  | call h c _ htaken ih => rwa [Call.filterMap_taken?_snoc _ htaken]
  | warned h hw ih =>
    have hlevel : Level.warning ≠ Level.debug := by decide
    rw [Call.filterMap_taken?_snoc _ rfl]
    simpa [hw.level_eq, hlevel] using ih
  | @advanced calls path said h next s y alpha direction ih =>
    rw [List.filter_append, ih, List.filterMap_append, List.zip_append h.length_taken.symm,
      List.mapIdx_append]
    simp [h.length_taken, Remark.level, Level.debug, Call.taken?]

theorem length_details (h : Narrated name calls path said) :
    said.countP (·.level = Level.debug) = path.length := by
  rw [List.countP_eq_length_filter, h.details_eq, List.length_mapIdx, List.length_zip,
    h.length_taken, Nat.min_self]

/-- A warning stands between the reports of the steps before and after it. -/
theorem warns {before after : List (Remark α)} {w : Remark α}
    (h : Narrated name calls path (before ++ w :: after)) (hw : w.level = Level.warning) :
    w.Warns name (before.countP (·.level = Level.debug)) := by
  generalize hsaid : before ++ w :: after = said at h
  -- The log grows at its end: the warning is the last remark, or it was there before.
  induction h generalizing after with
  | begin => exact absurd hsaid (List.append_ne_nil_of_right_ne_nil _ (List.cons_ne_nil _ _))
  | call h c _ _ ih => exact ih hsaid
  | warned h hlast ih =>
    obtain ⟨rfl, rfl⟩ | ⟨rest, hrest⟩ := append_cons_eq_concat hsaid
    · rwa [h.length_details]
    · exact ih hrest
  | advanced h next s y alpha direction ih =>
    obtain ⟨rfl, rfl⟩ | ⟨rest, hrest⟩ := append_cons_eq_concat hsaid
    · cases hw
    · exact ih hrest

end Narrated

end Narrated

/-- What the loop has said so far. -/
def Ledger.said (l : Ledger α V) : List (Remark α) := l.remarks.toList.filter (·.source = .loop)

theorem Ledger.said_push (l : Ledger α V) {r : Remark α} (hr : r.source = .loop) :
    Ledger.said { l with remarks := l.remarks.push r } = l.said ++ [r] := by
  simp [said, hr]

theorem Ledger.said_push_of_ne (l : Ledger α V) {r : Remark α} (hr : r.source ≠ .loop) :
    Ledger.said { l with remarks := l.remarks.push r } = l.said := by
  simp [said, hr]

theorem Remark.source_ne_of_isOwn {r : Remark α} (hr : r.isOwn = true) : r.source ≠ .loop := by
  cases r <;> simp_all [isOwn, source]

/-- The computation says nothing in the name of the loop. -/
def Act.Discreet (c : Act σ α V β) : Prop := ∀ said, Maintains (Accounts fun l => l.said = said) c

/-- The strategy leaves the logger of the loop to the loop. -/
structure Strategy.Discreet (s : Strategy σ α V M) (o : Oracle α V M) : Prop where
  compute : ∀ x, (s.compute o x).Discreet
  initialStep : ∀ g d, (s.initialStep g d).Discreet
  update : ∀ u y g a d, (s.update u y g a d).Discreet
  reset : s.reset.Discreet

def Search.Discreet (s : Search ρ α V M) (o : Oracle α V M) : Prop :=
  ∀ r asked, (s.run o r asked).Discreet

theorem Strategy.discreet_of_preserves {s : Strategy σ α V M} {o : Oracle α V M}
    (h : ∀ said, s.Preserves o (fun _ => False) fun l => l.said = said) : s.Discreet o where
  compute x said := (h said).compute x
  initialStep g d said := (h said).initialStep g d
  update u y g a d said := (h said).update u y g a d
  reset said := (h said).reset

section Work
variable [Scalar α] [Space α V] [Curved α V M] (p : Problem α V M) {n : ℕ} {needHessian : Bool}
  (said : List (Remark α))

omit [Scalar α] [Space α V] in
theorem uncounted_said : Uncounted fun l : Ledger α V => l.said = said :=
  ⟨fun _ => .inl, fun _ => .inl, fun _ => .inl⟩

theorem maintains_said_value (x : V) :
    Maintains (fun l => l.said = said) ((p.work n needHessian).value x) :=
  (uncounted_said said).work_value p needHessian x fun _ => .inl

theorem maintains_said_gradient (x : V) :
    Maintains (fun l => l.said = said) ((p.work n needHessian).gradient x) :=
  (uncounted_said said).work_gradient p needHessian x fun _ => .inl

/-- The strategies of the library remark on themselves under other loggers. -/
theorem Plan.discreet (plan : Plan α) :
    (plan.strategist : Strategist α V M).strategy.Discreet (p.work n needHessian) := by
  refine Strategy.discreet_of_preserves fun said => plan.preserves (fun r hr l hl => .inl ?_)
    fun x => (uncounted_said said).work_hessian p needHessian x fun _ => .inl
  exact (l.said_push_of_ne (Remark.source_ne_of_isOwn hr)).trans hl

theorem LineSearch.discreet (s : LineSearch α) :
    (s.machine : Search Unit α V M).Discreet (p.work n needHessian) := fun r asked said =>
  s.preserves (maintains_said_value p said) (maintains_said_gradient p said) r asked

end Work

theorem Script.discreet_answerAt {σ : Type} (script : List β) (k : ℕ) :
    (answerAt script k : Act σ α V β).Discreet := by
  intro said
  unfold answerAt
  cases answer? script k with
  | some answer => exact .pure _
  | none => exact .throw _

theorem Script.Directions.discreet [Neg V] (s : Directions α V) (o : Oracle α V M) :
    (s.strategy : Strategy Tally α V M).Discreet o where
  compute x said := by
    refine .bind Act.preserves_state fun t => .bind (discreet_answerAt _ _ said) fun answer => ?_
    refine .bind (Act.preserves_modifyState _) fun _ => ?_
    cases answer with
    | steepest => exact .pure _
    | along direction => exact .pure _
    | declined words => exact .throw _
  initialStep _ _ said :=
    .bind Act.preserves_state fun _ => .bind (discreet_answerAt _ _ said) fun _ =>
      .bind (Act.preserves_modifyState _) fun _ => .pure _
  update _ _ _ _ _ _ := Act.preserves_modifyState _
  reset _ := Act.preserves_modifyState _

theorem Script.discreet_search (verdicts : List (Verdict α V)) (o : Oracle α V M) :
    (search verdicts : Search ℕ α V M).Discreet o := fun _ _ said =>
  .bind Act.preserves_state fun _ => .bind (discreet_answerAt _ _ said) fun _ =>
    .bind (Act.preserves_modifyState _) fun _ => .pure _

/-- Calls, iterates and remarks of a run, as far as it has come. -/
structure Page (α V : Type) where
  calls : List (Call α V)
  path : List (Iterate α V)
  said : List (Remark α)

def page (t : Flow σ ρ α V × Ledger α V) : Page α V :=
  ⟨t.1.calls.toList, t.1.trace.toList, t.2.said⟩

namespace Descent
variable {d : Descent σ ρ α V M} {o : Oracle α V M} {I : Page α V → Prop}

/-- A discreet computation of a part of the flow that is not shown leaves the page as it is. -/
theorem maintains_within {τ : Type} {part : Flow σ ρ α V → τ}
    {replace : τ → Flow σ ρ α V → Flow σ ρ α V} {c : Act τ α V β} (hc : c.Discreet)
    (hpart : ∀ s f (l : Ledger α V), page (replace s f, l) = page (f, l)) :
    Maintains (fun t => I (page t)) (Act.within part replace c) := by
  refine maintains_iff.mpr fun t ht => ?_
  have hsaid := maintains_iff.mp (hc t.2.said) (part t.1, t.2) rfl
  have hpage : page ((Act.within part replace c).run.run t).2 = page t :=
    (hpart _ _ _).trans (congrArg (Page.mk _ _) hsaid)
  exact (congrArg I hpage).mpr ht

theorem maintains_ask {c : Act σ α V β} (hc : c.Discreet) :
    Maintains (fun t => I (page t)) (ask c : Act (Flow σ ρ α V) α V β) :=
  maintains_within hc fun _ _ _ => rfl

theorem maintains_look {c : Act ρ α V β} (hc : c.Discreet) :
    Maintains (fun t => I (page t)) (look c : Act (Flow σ ρ α V) α V β) :=
  maintains_within hc fun _ _ _ => rfl

theorem maintains_guarded {P : σ × Ledger α V → Prop} {c : Act σ α V β} (hc : Maintains P c) :
    Maintains P (guarded c) := by
  refine maintains_iff.mpr (.mono (ensures_guarded (maintains_iff.mp hc)) (fun _ ht => ht) ?_)
  rintro (f | f | b) t ht <;> exact ht

section Steps
variable {v : Page α V}

/-- The run stands at this page. -/
def Stood (v : Page α V) (t : Flow σ ρ α V × Ledger α V) : Prop := page t = v

theorem surely_noted (c : Call α V) :
    Ensures (Stood v) (note c : Act (Flow σ ρ α V) α V Unit)
      (Surely fun _ => Stood { v with calls := v.calls ++ [c] }) := by
  rintro t rfl
  exact congrArg (Page.mk · _ _) Array.toList_push

theorem surely_said {r : Remark α} (hr : r.source = .loop) :
    Ensures (Stood v) (Act.remark r : Act (Flow σ ρ α V) α V Unit)
      (Surely fun _ => Stood { v with said := v.said ++ [r] }) := by
  rintro t rfl
  exact congrArg (Page.mk _ _) (t.2.said_push hr)

theorem surely_pushed (y : Iterate α V) :
    Ensures (Stood v) (Act.modifyState fun f => { f with trace := f.trace.push y } :
      Act (Flow σ ρ α V) α V Unit) (Surely fun _ => Stood { v with path := v.path ++ [y] }) := by
  rintro t rfl
  exact congrArg (Page.mk _ · _) Array.toList_push

end Steps

variable [Scalar α] [Space α V] {name : String} {k : ℕ}

/-- After `k` steps the loop has said what it did. -/
def Told (name : String) (k : ℕ) (v : Page α V) : Prop :=
  Narrated name v.calls v.path v.said ∧ v.path.length = k

/-- The run stands at a page that tells what it did, after `k` steps. -/
abbrev Tells (name : String) (k : ℕ) (t : Flow σ ρ α V × Ledger α V) : Prop := Told name k (page t)

theorem Told.tells {v : Page α V} (h : Told name k v) {t : Flow σ ρ α V × Ledger α V}
    (ht : Stood v t) : Tells name k t :=
  (congrArg (Told name k) ht).mpr h

theorem tells_note {c : Call α V} (hreset : c.isReset = false) (htaken : c.taken? = none) :
    Maintains (Tells name k) (note c : Act (Flow σ ρ α V) α V Unit) := by
  refine maintains_iff.mpr fun t ht => ?_
  have hcalled : Told name k (⟨(page t).calls ++ [c], (page t).path, (page t).said⟩ : Page α V) :=
    ⟨ht.1.call c hreset htaken, ht.2⟩
  exact hcalled.tells (surely_noted c t rfl)

/-- A warning, the reset that it announces, and what follows. -/
theorem tells_warned (hreset : d.strategy.reset.Discreet) {w : Remark α} (hw : w.Warns name k)
    {c : Act (Flow σ ρ α V) α V β} (hc : Maintains (Tells name k) c) :
    Maintains (Tells name k) (do Act.remark w; d.reset; c) := by
  refine maintains_iff.mpr fun t ht => ?_
  have hwarned : Told name k
      (⟨(page t).calls ++ [.reset], (page t).path, (page t).said ++ [w]⟩ : Page α V) :=
    ⟨ht.1.warned (ht.2.symm ▸ hw), ht.2⟩
  -- Between the warning and the note of the reset the page tells of a reset that was not called.
  refine (?_ : Ensures (Stood (page t)) _ fun _ => Tells name k) t rfl
  refine Surely.bind (surely_said hw.source_eq) fun _ => ?_
  refine .bind (R := fun _ => Tells name k) ?_ (fun _ => maintains_iff.mp hc) fun _ _ h => h
  refine Surely.bind (surely_noted _) fun _ => ?_
  refine .mono (maintains_iff.mp (maintains_ask hreset)) (fun u hu => ?_) fun _ _ h => h
  exact hwarned.tells hu

section Loop
variable (hstrategy : d.strategy.Discreet o) (hsearch : d.search.Discreet o) (t : Progress α V)
include hstrategy

theorem tells_propose : Maintains (Tells d.strategy.name t.iterations) (d.propose o t) := by
  refine .bind (tells_note rfl rfl) fun _ =>
    .bind (maintains_guarded (maintains_ask (hstrategy.compute _))) fun r => ?_
  cases r with
  | error f => exact .pure _
  | ok direction =>
    refine .ite (.bind (fun _ ht => .inl ht) fun slope => .ite (.pure _) ?_) (.pure _)
    exact tells_warned hstrategy.reset .notDescending (.pure _)

include hsearch

theorem tells_searchAlong (x : Iterate α V) (direction : V) :
    Maintains (Tells name k) (d.searchAlong o x direction) :=
  .bind (tells_note rfl rfl) fun _ => .bind (maintains_ask (hstrategy.initialStep _ _)) fun _ =>
    .bind (tells_note rfl rfl) fun _ => maintains_look (hsearch _ _)

theorem tells_explore (direction : V) :
    Maintains (Tells d.strategy.name t.iterations) (d.explore o t direction) := by
  refine .bind (tells_searchAlong hstrategy hsearch _ _) fun step => .ite (.pure _) ?_
  refine tells_warned hstrategy.reset (.retrying _) ?_
  exact .bind (tells_searchAlong hstrategy hsearch _ _) fun _ => .pure _

/-- What a round leaves behind: a page that tells what the run did. -/
abbrev Telling (name : String) : Except (Fault α) (Progress α V ⊕ Stop α V) →
    Flow σ ρ α V × Ledger α V → Prop :=
  Rounded (fun t => Tells name t.iterations) (fun _ τ => ∃ k, Tells name k τ) fun _ _ => True

omit hsearch in
theorem ensures_told_take (direction : V) (step : Step α V) :
    Ensures (Tells d.strategy.name t.iterations) (d.take t direction step)
      (Telling d.strategy.name) := by
  refine .ite (fun _ τ hτ => ?_) fun _ => .pure fun _ hτ => ⟨_, hτ⟩
  -- Call, remark and iterate come one by one, and only the page with all three tells the step.
  refine (?_ : Ensures (Stood (page τ)) _ (Telling d.strategy.name)) τ rfl
  have hkeep : ∀ {γ : Type} {v : Page α V} (e : Except (Fault α) γ),
      Ensures (Stood v) (Act.ofExcept e : Act (Flow σ ρ α V) α V γ) fun _ => Stood v :=
    fun e _ h => h
  refine .bind (hkeep _) (fun s => ?_) fun _ _ _ => trivial
  refine .bind (hkeep _) (fun y => ?_) fun _ _ _ => trivial
  refine Surely.bind (surely_noted _) fun _ => ?_
  refine .bind (maintains_iff.mp (maintains_ask (I := (· = _)) (hstrategy.update _ _ _ _ _)))
    (fun _ => ?_) fun _ _ _ => trivial
  refine Surely.bind (surely_said rfl) fun _ => Surely.bind (surely_pushed _) fun _ => ?_
  refine .bind (hkeep _) (fun done => ?_) fun _ _ _ => trivial
  have hnext : Told d.strategy.name (t.iterations + 1) (⟨_, _, _⟩ : Page α V) :=
    ⟨hτ.2 ▸ hτ.1.advanced step.reached s y step.alpha direction, by
      rw [List.length_append, hτ.2, List.length_singleton]⟩
  cases done with
  | true => exact .pure fun u hu => ⟨_, hnext.tells hu⟩
  | false => exact .pure fun u hu => hnext.tells hu

theorem ensures_told_iterate :
    Ensures (Tells d.strategy.name t.iterations) (d.iterate o t) (Telling d.strategy.name) := by
  refine .bind (maintains_iff.mp (tells_propose hstrategy t)) (fun r => ?_) fun _ _ _ => trivial
  cases r with
  | error message => exact .pure fun _ hτ => ⟨_, hτ⟩
  | ok direction =>
    have hexplore := maintains_guarded (tells_explore hstrategy hsearch t direction)
    refine .bind (maintains_iff.mp hexplore) (fun r => ?_) fun _ _ _ => trivial
    cases r with
    | error f => exact .pure fun _ hτ => ⟨_, hτ⟩
    | ok found =>
      exact .ite (fun _ => ensures_told_take hstrategy t found.1 found.2) fun _ =>
        .pure fun _ hτ => ⟨_, hτ⟩

theorem ensures_told_pursue (start : Iterate α V) :
    Ensures (Tells d.strategy.name 0) (d.pursue o start)
      (Answered fun _ τ => ∃ k, Tells d.strategy.name k τ) := by
  refine .bind (R := fun _ => Tells d.strategy.name 0) (fun _ h => h) (fun done => ?_)
    fun _ _ _ => trivial
  refine .ite (fun _ => .pure fun _ h => ⟨_, h⟩) fun _ => ?_
  refine .bind (.upTo (ensures_told_iterate hstrategy hsearch) d.config.maxIters ⟨start, 0⟩)
    (fun r => ?_) fun _ _ _ => trivial
  cases r with
  | inl t => exact .pure fun _ h => ⟨_, h⟩
  | inr stop => exact .pure fun _ h => h

end Loop

section Run
variable [Downhill.Curved α V M] {x : V} {state : σ} {search : ρ} {outcome : Outcome α V}
  (hstrategy : d.strategy.Discreet (d.work (Space.size x)))
  (hsearch : d.search.Discreet (d.work (Space.size x)))
  (hout : (d.run x state search).result = .ok outcome)

/-- Nothing is said before the first iteration. -/
theorem told_start {calls : List (Call α V)} (hcalls : calls = [] ∨ calls = [.prepare]) :
    Told name 0 ⟨calls, [], (openAt (d.work (Space.size x)) x).start.2.said⟩ := by
  have hsaid : (openAt (d.work (Space.size x)) x).start.2.said = [] :=
    maintains_iff.mp (preserves_openAt (maintains_said_value d.problem [])
      (maintains_said_gradient d.problem []) x) {} rfl
  rw [hsaid]
  refine ⟨?_, rfl⟩
  obtain rfl | rfl := hcalls
  · exact .begin
  · exact .call .begin .prepare rfl rfl

omit [Downhill.Curved α V M] in
theorem said_close {r : Except (Fault α) (Stop α V)} {t : Flow σ ρ α V × Ledger α V}
    (h : (d.close x r t.1 t.2).result = .ok outcome) :
    (d.close x r t.1 t.2).ledger.said = t.2.said ++ [.finished d.strategy.name outcome.iterations
      outcome.message outcome.value outcome.gradientNorm] := by
  cases r with
  | error f => cases h
  | ok stop =>
    cases h
    exact t.2.said_push rfl

include hstrategy hsearch hout in
theorem exists_told : ∃ r t k, d.run x state search = d.close x r t.1 t.2 ∧
    Tells d.strategy.name k t := by
  obtain ⟨stop, -, hrun⟩ | ⟨start, -, -, -, -, hopened, -⟩ := course_of_outcome hout
  · exact ⟨.ok stop, (_, _), 0, hrun, told_start (.inl rfl)⟩
  obtain ⟨f, l, -, hrun⟩ | ⟨prepared, r, t, -, hpursue, hrun⟩ :=
    run_of_opened state search hopened
  · rw [hrun] at hout
    cases hout
  · have htold := ensures_told_pursue hstrategy hsearch start
      (.start prepared search #[.prepare], (openAt (d.work (Space.size x)) x).start.2)
      (told_start (.inr rfl))
    rw [hpursue] at htold
    cases r with
    | error f =>
      rw [hrun] at hout
      cases hout
    | ok stop =>
      obtain ⟨k, hk⟩ := htold
      exact ⟨.ok stop, t, k, hrun, hk⟩

include hstrategy hsearch hout in
/-- What a run with an outcome has said: what it did, and at last how it ended. -/
theorem exists_narrated : ∃ said, Narrated d.strategy.name
      (d.run x state search).flow.calls.toList (d.run x state search).flow.trace.toList said ∧
    (d.run x state search).ledger.said = said ++ [.finished d.strategy.name outcome.iterations
      outcome.message outcome.value outcome.gradientNorm] := by
  obtain ⟨r, t, k, hrun, ht⟩ := exists_told hstrategy hsearch hout
  rw [hrun] at hout ⊢
  rw [flow_close]
  exact ⟨t.2.said, ht.1, said_close hout⟩

end Run

section Lines
variable [Space Float V] [Downhill.Curved Float V M]

/-- The log of the loop mirrors the run, for every problem, start and configuration, and for every
strategy and search that leave the logger of the loop alone. With logging from details on, the
lines of the loop are those of its remarks and one more, the last, which gives the result. There is
a detail for every accepted iterate, in order and with its value, its gradient norm and the length
of its step. There are as many warnings as resets of the strategy, and the warnings of an iteration
stand before its detail and after those of the iterations before. With logging from warnings on,
the warnings are what is left. -/
theorem run_logged (d : Descent σ ρ Float V M) (x : V) (state : σ) (search : ρ)
    {outcome : Outcome Float V} (hstrategy : d.strategy.Discreet (d.work (Space.size x)))
    (hsearch : d.search.Discreet (d.work (Space.size x)))
    (hout : (d.run x state search).result = .ok outcome) :
    let name := d.strategy.name
    let record := d.run x state search
    let path := record.flow.trace.toList
    let result : Remark Float := .finished name outcome.iterations outcome.message outcome.value
      outcome.gradientNorm
    let lines := fun level =>
      Registry.linesFrom "optlib.driver" level record.ledger.remarks.toList
    ∃ said : List (Remark Float),
      lines Level.debug = said.map Remark.line ++ [result.line] ∧
      lines Level.warning = (said.filter (·.level = Level.warning)).map Remark.line ∧
      (∀ r ∈ said, r.level = Level.debug ∨ r.level = Level.warning) ∧
      record.flow.taken.length = path.length ∧
      said.filter (·.level = Level.debug) = (path.zip record.flow.taken).mapIdx (fun k p =>
        .iterated name (k + 1) p.1.value (Space.norm p.1.gradient) p.2.1) ∧
      (said.filter (·.level = Level.warning)).length =
        record.flow.calls.toList.countP Call.isReset ∧
      ∀ before w after, said = before ++ w :: after → w.level = Level.warning →
        w.Warns name (before.countP (·.level = Level.debug)) := by
  intro name record path result lines
  obtain ⟨said, hnarrated, hsaid⟩ := exists_narrated hstrategy hsearch hout
  have hlines : ∀ level, 0 < level →
      lines level = ((said ++ [result]).filter fun r => level ≤ r.level).map Remark.line := by
    intro level hlevel
    rw [← hsaid]
    exact Registry.linesFrom_logger hlevel .loop _
  have hdebug : (said ++ [result]).filter (fun r => Level.debug ≤ r.level) = said ++ [result] := by
    refine List.filter_eq_self.mpr (List.forall_mem_append.mpr ⟨fun r hr => ?_, ?_⟩)
    · obtain h | h := hnarrated.level_eq r hr <;> rw [h] <;> rfl
    · exact List.forall_mem_singleton.mpr rfl
  have hwarning : (said ++ [result]).filter (fun r => Level.warning ≤ r.level) =
      said.filter (·.level = Level.warning) := by
    have hlast : decide (Level.warning ≤ result.level) = false := rfl
    rw [List.filter_append, List.filter_singleton, hlast, cond_false, List.append_nil]
    refine List.filter_congr fun r hr => ?_
    obtain h | h := hnarrated.level_eq r hr <;> rw [h] <;> rfl
  refine ⟨said, ?_, ?_, hnarrated.level_eq, hnarrated.length_taken, hnarrated.details_eq,
    hnarrated.length_warnings, ?_⟩
  · rw [hlines _ (by decide), hdebug, List.map_append, List.map_singleton]
  · rw [hlines _ (by decide), hwarning]
  · rintro before w after rfl hw
    exact hnarrated.warns hw

/-- Two directions that do not lead to a step: the first one does not descend, and along the second
one the search fails. -/
theorem run_logged_scripted :
    let p : Problem Float (Vector Float 1) (Matrix Float 1) :=
      ⟨"square", some 1, fun x => .ok (x.get 0 * x.get 0), some fun x => .ok #v[2 * x.get 0], none,
        gradientTest⟩
    let d : Descent Script.Tally ℕ Float (Vector Float 1) (Matrix Float 1) :=
      ⟨p, Script.Directions.strategy ⟨"scripted", false, [.along #v[1], .along #v[-3]], [none]⟩,
        Script.search [⟨0.25, ⟨#v[0.5], 0.25, #v[1]⟩, true, "found"⟩,
          ⟨0, ⟨#v[0.5], 0.25, #v[1]⟩, false, "no step"⟩, ⟨0.5, ⟨#v[0], 0, #v[0]⟩, true, "found"⟩],
        .standard⟩
    let record := d.run #v[1] {} 0
    let lines := fun level =>
      Registry.linesFrom "optlib.driver" level record.ledger.remarks.toList
    let outcome : Outcome Float (Vector Float 1) :=
      ⟨#v[0], 0, 0, 2, .converged, .toleranceMet, ⟨1, 1, 0⟩, []⟩
    record.result = .ok outcome ∧ record.flow.calls.toList.countP Call.isReset = 2 ∧
    lines Level.debug = [
      "[WARNING] optlib.driver: scripted: not a descent direction at iteration 0, using -grad",
      "[DEBUG] optlib.driver: scripted iter 1: f=2.500000e-01 |g|=1.000e+00 alpha=2.500e-01",
      "[WARNING] optlib.driver: scripted: line search failed at iteration 1 (no step), "
        ++ "retrying along -grad",
      "[DEBUG] optlib.driver: scripted iter 2: f=0.000000e+00 |g|=0.000e+00 alpha=5.000e-01",
      "[INFO] optlib.driver: scripted finished after 2 iterations: Gradient tolerance satisfied. "
        ++ "(f=0.000000e+00, |g|=0.000e+00)"] ∧
    ∃ said : List (Remark Float), lines Level.debug = said.map Remark.line ++
        [Remark.line (.finished "scripted" 2 .toleranceMet 0 0)] ∧
      lines Level.warning = (said.filter (·.level = Level.warning)).map Remark.line ∧
      (said.filter (·.level = Level.warning)).length = 2 := by
  intro p d record lines outcome
  have hout : record.result = .ok outcome := by decide +kernel
  have hresets : record.flow.calls.toList.countP Call.isReset = 2 := by decide +kernel
  obtain ⟨said, hdebug, hwarning, -, -, -, hlength, -⟩ := run_logged d #v[1] {} 0
    (Script.Directions.discreet _ _) (Script.discreet_search _ _) hout
  exact ⟨hout, hresets, by decide +kernel, said, hdebug, hwarning, hlength.trans hresets⟩

end Lines

end Descent

end Downhill
