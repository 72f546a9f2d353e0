import Downhill.Proofs.Descent.Conversation
import Downhill.Proofs.Descent.Steady

/-! An iteration keeps to the protocol. Each part of it makes the calls that are due, in their
order, and leaves the phase that its answer tells: a settled direction, a search that is over, or
the next iterate. -/
namespace Downhill
variable {σ ρ α V M : Type} [Scalar α] [Space α V]

namespace Space
variable {u v w : V} {a : α}

omit [Scalar α] in
theorem eq_inner_of_dot? (h : dot? u v = .ok a) : a = inner u v := by
  obtain ⟨_, -, h⟩ := bind_eq_ok_iff.mp h
  exact (Except.ok.inj h).symm

omit [Scalar α] in
theorem eq_sub_of_difference? (h : difference? u v = .ok w) : w = u - v := by
  obtain ⟨_, -, h⟩ := bind_eq_ok_iff.mp h
  exact (Except.ok.inj h).symm

end Space

namespace Phase
variable {p : Phase α V} {x : Iterate α V} {direction : V} {again : Bool}

/-- The direction of the iteration at `x` is settled. -/
inductive Aims : Phase α V → Iterate α V → V → Bool → Prop
  | replaced (x : Iterate α V) (again : Bool) : Aims (.aimed x again) x (-x.gradient) again
  | descends {x : Iterate α V} {direction : V} (hfin : Space.finite direction = true)
      (hneg : Space.inner x.gradient direction < 0) :
      Aims (.proposed x direction) x direction false

theorem Aims.due (h : p.Aims x direction again) :
    p.due = some (.initialStep x.gradient direction) := by
  cases h with
  | replaced => rfl
  | descends hfin hneg => simp only [Phase.due, if_pos hfin, if_pos hneg]

theorem Aims.after (h : p.Aims x direction again) (asked : Option α) :
    p.after (.initialStep x.gradient direction) asked = .primed x direction again asked := by
  cases h <;> rfl

theorem Aims.iterate (h : p.Aims x direction again) : p.iterate = x := by
  cases h <;> rfl

end Phase

/-- A step to something that is not finite counts, although it is not taken. -/
def RunMessage.untaken : RunMessage α → ℕ
  | .stepNotFinite => 1
  | _ => 0

/-- The end test after a step from `x` to `y`. -/
def Descent.verdict (d : Descent σ ρ α V M) (x y : Iterate α V) : Except (Fault α) Bool :=
  d.problem.converged x.point y.point y.gradient d.config.tolerance

/-- What a run is talking about: its parts, the state in which it has begun, and its start. -/
structure Scene (σ ρ α V M : Type) where
  descent : Descent σ ρ α V M
  oracle : Oracle α V M
  begun : Flow σ ρ α V × Ledger α V
  start : Iterate α V

namespace Scene
variable (s : Scene σ ρ α V M) {p : Phase α V} {path : List (Iterate α V)} {β : Type}

/-- The events so far have led to the phase `p`. The iterates that were accepted on the way are
those in `met`, and those that are noted are in `path`. -/
structure Led (events : List (Event α V)) (p : Phase α V) (met path : List (Iterate α V))
    (t : Flow σ ρ α V × Ledger α V) : Prop where
  transcript : s.descent.Transcript s.oracle s.begun events t
  obeys : (Phase.ready s.start).Obeys events
  along : (Phase.ready s.start).along events = p
  accepted : (Phase.ready s.start).accepted events = met
  trace : t.1.trace.toList = path

/-- Some events have led to the phase `p`. -/
def Stands (p : Phase α V) (met path : List (Iterate α V)) (t : Flow σ ρ α V × Ledger α V) : Prop :=
  ∃ events, s.Led events p met path t

/-- The same where every iterate that was accepted is noted. -/
abbrev Noted (p : Phase α V) (path : List (Iterate α V)) : Flow σ ρ α V × Ledger α V → Prop :=
  s.Stands p path path

/-- A call was entered and is not answered yet. -/
def Entered (p : Phase α V) (path : List (Iterate α V)) (c : Call α V)
    (t : Flow σ ρ α V × Ledger α V) : Prop :=
  ∃ f l, s.Noted p path (f, l) ∧ t = ({ f with calls := f.calls.push c }, l)

variable {s}

/-- A call that is due leads to the phase after its answer. -/
theorem Led.call {events : List (Event α V)} {met : List (Iterate α V)} {f : Flow σ ρ α V}
    {l : Ledger α V} (h : s.Led events p met path (f, l)) {q : Query α V} (hq : p.due = some q)
    (answer : Except (Fault α) q.Answer) {t : Flow σ ρ α V × Ledger α V}
    (ht : (s.descent.serve s.oracle q).perform { f with calls := f.calls.push q.call } l =
      (answer, t)) :
    s.Led (events ++ [⟨q, answer⟩]) (p.answered ⟨q, answer⟩)
      (met ++ (p.answered ⟨q, answer⟩).accepted?.toList) path t := by
  refine ⟨h.transcript.call ⟨q, answer⟩ ht, ?_, ?_, ?_, ?_⟩
  · rw [Phase.obeys_append, h.along]
    exact ⟨h.obeys, hq, trivial⟩
  · rw [Phase.along_append, h.along]
    rfl
  · rw [Phase.accepted_append, h.accepted, h.along]
    simp only [Phase.accepted, List.append_nil]
  · rw [← h.trace, ← congrArg (fun r => r.2.1.trace) ht, Descent.trace_serve]

theorem ensures_enter (c : Call α V) :
    Ensures (s.Noted p path) (Descent.note c) fun r t => r = .ok () ∧ s.Entered p path c t :=
  fun t ht => ⟨rfl, t.1, t.2, ht, rfl⟩

/-- A call that is due, and after which no iterate is accepted, is answered. -/
theorem ensures_serve (q : Query α V) (hq : p.due = some q)
    (hmet : ∀ r, (p.answered ⟨q, r⟩).accepted? = none) :
    Ensures (s.Entered p path q.call) (s.descent.serve s.oracle q) fun r t =>
      s.Noted (p.answered ⟨q, r⟩) path t := by
  rintro _ ⟨f, l, ⟨events, h⟩, rfl⟩
  have hcall := h.call hq ((s.descent.serve s.oracle q).perform
    { f with calls := f.calls.push q.call } l).1 rfl
  rw [hmet, Option.toList_none, List.append_nil] at hcall
  exact ⟨_, hcall⟩

/-- What follows a call depends on its answer. -/
theorem ensures_call (q : Query α V) (hq : p.due = some q)
    (hmet : ∀ r, (p.answered ⟨q, r⟩).accepted? = none)
    {next : q.Answer → Act (Flow σ ρ α V) α V β}
    {Q : Except (Fault α) β → Flow σ ρ α V × Ledger α V → Prop}
    (hnext : ∀ a, Ensures (s.Noted (p.after q a) path) (next a) Q)
    (hfault : ∀ f t, s.Noted (.broken p.iterate f) path t → Q (.error f) t) :
    Ensures (s.Noted p path)
      (Descent.note q.call >>= fun _ => s.descent.serve s.oracle q >>= next) Q := by
  refine .bind (ensures_enter q.call) (fun _ => ?_) fun _ _ ht => nomatch ht.1
  exact .of_fact fun _ => .bind (ensures_serve q hq hmet) hnext hfault

theorem ensures_reset (hp : p.due = some .reset)
    (hmet : ∀ r, (p.answered ⟨.reset, r⟩).accepted? = none) :
    Ensures (s.Noted p path) s.descent.reset fun r t =>
      s.Noted (p.answered ⟨.reset, r⟩) path t := by
  refine .bind (ensures_enter .reset) (fun _ => ?_) fun _ _ ht => nomatch ht.1
  exact .of_fact fun _ => ensures_serve .reset hp hmet

theorem ensures_remark {met : List (Iterate α V)} (r : Remark α) :
    Ensures (s.Stands p met path) (Act.remark r) fun u t => u = .ok () ∧ s.Stands p met path t := by
  rintro t ⟨events, h⟩
  exact ⟨rfl, events, h.transcript.remark r, h.obeys, h.along, h.accepted, h.trace⟩

theorem ensures_ofExcept (e : Except (Fault α) β) :
    Ensures (s.Noted p path) (Act.ofExcept e) fun r t => r = e ∧ s.Noted p path t :=
  fun _ ht => ⟨rfl, ht⟩

/-- What has become of a part of the iteration at `x`: its answer tells the phase, and a fault
breaks the iteration. -/
def Spoken (s : Scene σ ρ α V M) (x : Iterate α V) (path : List (Iterate α V))
    (Q : β → Phase α V → Prop) : Except (Fault α) β → Flow σ ρ α V × Ledger α V → Prop
  | .ok b, t => ∃ p, Q b p ∧ s.Noted p path t
  | .error f, t => s.Noted (.broken x f) path t

theorem ensures_searchAlong {x : Iterate α V} {direction : V} {again : Bool}
    (hp : p.Aims x direction again) :
    Ensures (s.Noted p path) (s.descent.searchAlong s.oracle x direction)
      (s.Spoken x path fun step p => p = .searched x direction again step) := by
  refine ensures_call (.initialStep x.gradient direction) hp.due (fun r => ?_) (fun asked => ?_)
    fun f t ht => ?_
  · cases hp <;> cases r <;> rfl
  · rw [hp.after]
    refine .bind (ensures_enter (.search direction)) (fun _ => .of_fact fun _ => ?_)
      fun _ _ ht => nomatch ht.1
    refine .mono (ensures_serve (.search ⟨x, direction⟩ asked) rfl fun r => ?_) (fun _ ht => ht)
      fun r t ht => ?_
    · cases r <;> rfl
    · cases r with
      | ok step => exact ⟨_, rfl, ht⟩
      | error f => exact ht
  · rw [hp.iterate] at ht
    exact ht

/-- The direction that was searched last, and what the search found. Where it failed no other search
is due. -/
theorem ensures_explore (t : Progress α V) {direction : V} (hp : p.Aims t.current direction false) :
    Ensures (s.Noted p path) (s.descent.explore s.oracle t direction)
      (s.Spoken t.current path fun r p => ∃ again, p = .searched t.current r.1 again r.2 ∧
        (r.2.success = false → (again || r.1 == -t.current.gradient) = true)) := by
  refine .bind (ensures_searchAlong hp) (fun step => ?_) fun _ _ ht => ht
  rintro τ ⟨p, rfl, hτ⟩
  refine (?_ : Ensures (s.Noted (.searched t.current direction false step) path) _ _) τ hτ
  refine .ite (fun hdone => .pure fun τ hτ => ⟨_, ⟨false, rfl, fun hfail => ?_⟩, hτ⟩)
    fun hretry => ?_
  · have hfail : step.success = false := hfail
    simpa [hfail] using hdone
  · have hdue : (Phase.searched t.current direction false step).due = some .reset := by
      simp only [Bool.or_eq_true, not_or, Bool.not_eq_true] at hretry
      simp [Phase.due, hretry]
    refine .bind (ensures_remark _) (fun _ => .of_fact fun _ => ?_) fun _ _ ht => nomatch ht.1
    refine .bind (ensures_reset hdue fun r => by cases r <;> rfl) (fun _ => ?_) fun _ _ ht => ht
    refine .bind (ensures_searchAlong (.replaced t.current true))
      (fun step => ?_) fun _ _ ht => ht
    refine .pure fun τ hτ => ?_
    obtain ⟨p, rfl, hτ⟩ := hτ
    exact ⟨_, ⟨true, rfl, fun _ => rfl⟩, hτ⟩

/-- What has become of the proposal of a direction at `x`. -/
def Proposed (s : Scene σ ρ α V M) (x : Iterate α V) (path : List (Iterate α V)) :
    Except (Fault α) (Except (RunMessage α) V) → Flow σ ρ α V × Ledger α V → Prop
  | .ok (.ok direction), t => ∃ p, p.Aims x direction false ∧ s.Noted p path t
  | .ok (.error message), t =>
    ∃ p, p.iterate = x ∧ p.closing = some (.numericalError, message) ∧ message.untaken = 0 ∧
      s.Noted p path t
  | .error _, t => ∃ p, s.Noted p path t

theorem ensures_propose (t : Progress α V) :
    Ensures (s.Noted (.ready t.current) path) (s.descent.propose s.oracle t)
      (s.Proposed t.current path) := by
  refine .bind (ensures_enter .compute) (fun _ => .of_fact fun _ => ?_) fun _ _ ht => nomatch ht.1
  have hserve : Ensures (s.Entered (.ready t.current) path .compute) _ _ :=
    ensures_serve (.compute t.current) rfl fun r => by cases r <;> rfl
  refine .bind (ensures_guarded hserve) (fun r => ?_) fun f τ hτ => ⟨_, hτ⟩
  cases r with
  | error f => exact .pure fun τ hτ => ⟨_, rfl, rfl, rfl, hτ⟩
  | ok direction =>
    refine (?_ : Ensures (s.Noted (.proposed t.current direction) path) _ _)
    refine .ite (fun hfin => ?_) fun hfin =>
      .pure fun τ hτ => ⟨.proposed t.current direction, rfl, if_neg hfin, rfl, hτ⟩
    refine .bind (ensures_ofExcept _) (fun slope => .of_fact fun hslope => ?_)
      fun _ τ hτ => ⟨_, hτ.2⟩
    obtain rfl := Space.eq_inner_of_dot? hslope.symm
    refine .ite (fun hneg => .pure fun τ hτ => ⟨_, .descends hfin hneg, hτ⟩) fun hneg => ?_
    have hdue : (Phase.proposed t.current direction).due = some .reset := by
      simp only [Phase.due, if_pos hfin, if_neg hneg]
    refine .bind (ensures_remark _) (fun _ => .of_fact fun _ => ?_) fun _ _ ht => nomatch ht.1
    refine .bind (ensures_reset hdue fun r => by cases r <;> rfl) (fun _ => ?_)
      fun _ τ hτ => ⟨_, hτ⟩
    exact .pure fun τ hτ => ⟨_, .replaced _ _, hτ⟩

/-- The events so far keep to the protocol, however far the run has come. -/
def Orderly (s : Scene σ ρ α V M) (t : Flow σ ρ α V × Ledger α V) : Prop :=
  ∃ p met path, s.Stands p met path t

theorem Stands.orderly {met : List (Iterate α V)} {t : Flow σ ρ α V × Ledger α V}
    (h : s.Stands p met path t) : s.Orderly t :=
  ⟨p, met, path, h⟩

/-- A run that stops in a phase in which no call is due. -/
def Closed (s : Scene σ ρ α V M) (t : Progress α V) (path : List (Iterate α V)) (stop : Stop α V)
    (τ : Flow σ ρ α V × Ledger α V) : Prop :=
  ∃ p status message, p.iterate = t.current ∧ p.closing = some (status, message) ∧
    stop = ⟨status, message, t.iterations + message.untaken, t.current⟩ ∧ s.Noted p path τ

/-- What has become of an iteration: the run goes on from the next iterate, or it stops there
because the end test is met, or it stops where it was. -/
def Turned (s : Scene σ ρ α V M) (t : Progress α V) (path : List (Iterate α V)) :
    Except (Fault α) (Progress α V ⊕ Stop α V) → Flow σ ρ α V × Ledger α V → Prop
  | .ok (.inl next), τ => next.iterations = t.iterations + 1 ∧
    s.descent.verdict t.current next.current = .ok false ∧
    s.Noted (.ready next.current) (path ++ [next.current]) τ
  | .ok (.inr stop), τ =>
    (∃ y, stop = ⟨.converged, .toleranceMet, t.iterations + 1, y⟩ ∧
      s.descent.verdict t.current y = .ok true ∧ s.Noted (.ready y) (path ++ [y]) τ) ∨
    s.Closed t path stop τ
  | .error _, τ => s.Orderly τ

/-- A step that is reported to the strategy is accepted, unless the report fails. -/
theorem ensures_update {x : Iterate α V} {direction : V} {again : Bool} {step : Step α V}
    {q : Query α V} (hp : (Phase.searched x direction again step).due = some q)
    (hafter : ∀ a, (Phase.searched x direction again step).after q a = .ready step.reached) :
    Ensures (s.Entered (.searched x direction again step) path q.call)
      (s.descent.serve s.oracle q) fun r t => match r with
        | .ok _ => s.Stands (.ready step.reached) (path ++ [step.reached]) path t
        | .error f => s.Noted (.broken x f) path t := by
  rintro _ ⟨f, l, ⟨events, h⟩, rfl⟩
  -- Whether the iterate is accepted depends on the answer, so the answer is named first.
  generalize hr : ((s.descent.serve s.oracle q).run.run
    ({ f with calls := f.calls.push q.call }, l)).1 = r
  have hcall := h.call hp r (Prod.ext hr rfl)
  cases r with
  | ok a =>
    simp only [Phase.answered, hafter, Phase.accepted?, Option.toList_some] at hcall
    exact ⟨_, hcall⟩
  | error e =>
    simp only [Phase.answered, Phase.accepted?, Option.toList_none, List.append_nil] at hcall
    exact ⟨_, hcall⟩

/-- An iterate that was accepted is noted. -/
theorem ensures_keep (y : Iterate α V) :
    Ensures (s.Stands (.ready y) (path ++ [y]) path)
      (Act.modifyState fun f => { f with trace := f.trace.push y }) fun u t =>
      u = .ok () ∧ s.Noted (.ready y) (path ++ [y]) t := by
  rintro t ⟨events, h⟩
  refine ⟨rfl, events, h.transcript.accept y, h.obeys, h.along, h.accepted, ?_⟩
  exact Array.toList_push.trans (congrArg (· ++ [y]) h.trace)

theorem ensures_take (t : Progress α V) {direction : V} {again : Bool} {step : Step α V}
    (hok : step.success = true) :
    Ensures (s.Noted (.searched t.current direction again step) path)
      (s.descent.take t direction step) (s.Turned t path) := by
  refine .ite (fun hfin => ?_) fun hfin => .pure fun τ hτ => .inr
    ⟨_, .numericalError, .stepNotFinite, rfl, ?_, rfl, hτ⟩
  · refine .bind (ensures_ofExcept _) (fun u => .of_fact fun hu => ?_) fun _ τ hτ => hτ.2.orderly
    obtain rfl := Space.eq_sub_of_difference? hu.symm
    refine .bind (ensures_ofExcept _) (fun v => .of_fact fun hv => ?_) fun _ τ hτ => hτ.2.orderly
    obtain rfl := Space.eq_sub_of_difference? hv.symm
    have hdue : (Phase.searched t.current direction again step).due = some (.update
        (step.reached.point - t.current.point) (step.reached.gradient - t.current.gradient)
        step.reached.gradient step.alpha direction) := by
      simp only [Phase.due, if_pos hok, if_pos hfin]
    refine .bind (ensures_enter _) (fun _ => .of_fact fun _ => ?_) fun _ _ ht => nomatch ht.1
    refine .bind (ensures_update hdue fun _ => rfl) (fun _ => ?_) fun _ τ hτ => hτ.orderly
    refine .bind (ensures_remark _) (fun _ => .of_fact fun _ => ?_) fun _ _ ht => nomatch ht.1
    refine .bind (ensures_keep step.reached) (fun _ => .of_fact fun _ => ?_)
      fun _ _ ht => nomatch ht.1
    refine .bind (ensures_ofExcept _) (fun done => .of_fact fun hdone => ?_)
      fun _ τ hτ => hτ.2.orderly
    cases done with
    | true => exact .pure fun τ hτ => .inl ⟨_, rfl, hdone.symm, hτ⟩
    | false => exact .pure fun τ hτ => ⟨rfl, hdone.symm, hτ⟩
  · simp only [Phase.closing, if_pos hok, if_neg hfin]

theorem ensures_iterate (t : Progress α V) :
    Ensures (s.Noted (.ready t.current) path) (s.descent.iterate s.oracle t)
      (s.Turned t path) := by
  refine .bind (ensures_propose t) (fun r => ?_) fun _ τ ⟨p, hτ⟩ => hτ.orderly
  cases r with
  | error message =>
    refine .pure fun τ ⟨p, hp, hclosing, huntaken, hτ⟩ => .inr ⟨p, _, _, hp, hclosing, ?_, hτ⟩
    rw [huntaken]
    rfl
  | ok direction =>
    rintro τ ⟨p, hp, hτ⟩
    refine (?_ : Ensures (s.Noted p path) _ _) τ hτ
    refine .bind (ensures_guarded (ensures_explore t hp)) (fun r => ?_) fun _ τ hτ => hτ.orderly
    rcases r with f | ⟨direction, step⟩
    · exact .pure fun τ hτ => .inr ⟨_, _, _, rfl, rfl, rfl, hτ⟩
    · rintro τ ⟨p, ⟨again, rfl, hlast⟩, hτ⟩
      refine (?_ : Ensures (s.Noted _ path) _ _) τ hτ
      refine .ite (fun hok => ensures_take t hok) fun hfail => .pure fun τ hτ => .inr
        ⟨_, .searchFailed, .search step.message, rfl, ?_, rfl, hτ⟩
      have hover := hlast (Bool.eq_false_iff.mpr hfail)
      simp only [Phase.closing, if_neg hfail, if_pos hover]

end Scene

end Downhill
