import Downhill.Proofs.Descent.Conduct
import Downhill.Proofs.Direction.Descending
import Downhill.Proofs.Solver.Equipped

/-! A run never has to put steepest descent in the place of a direction of the library. At an
iterate where the end test fails the gradient is not zero; there every direction descends, and the
strategy is reset only after a search that failed. -/
namespace Downhill
variable {σ ρ α V M K : Type}

open Exact

/-- The last event is a search without success. -/
def FollowsFailure (events : List (Event α V)) : Prop :=
  ∃ before ray asked step, events = before ++ [⟨.search ray asked, .ok step⟩] ∧
    step.success = false

/-- The directions that were computed descend, and every reset follows a search that failed. -/
structure Descending [Scalar α] [Space α V] (events : List (Event α V)) : Prop where
  directions : ∀ y v, ⟨.compute y, .ok v⟩ ∈ events → Space.inner y.gradient v < 0
  resets : ∀ before r rest, events = before ++ ⟨.reset, r⟩ :: rest → FollowsFailure before

theorem Descending.nil [Scalar α] [Space α V] : Descending ([] : List (Event α V)) := by
  refine ⟨fun y v h => absurd h List.not_mem_nil, fun before r rest h => ?_⟩
  exact absurd h.symm (List.append_ne_nil_of_right_ne_nil _ (List.cons_ne_nil _ _))

theorem Descending.snoc [Scalar α] [Space α V] {events : List (Event α V)} {e : Event α V}
    (h : Descending events)
    (hdirection : ∀ y v, e = ⟨.compute y, .ok v⟩ → Space.inner y.gradient v < 0)
    (hreset : e.query = .reset → FollowsFailure events) : Descending (events ++ [e]) := by
  refine ⟨fun y v hv => ?_, fun before r rest hevents => ?_⟩
  · obtain hv | hv := List.mem_append.mp hv
    · exact h.directions y v hv
    · exact hdirection y v (List.mem_singleton.mp hv).symm
  · rcases List.eq_nil_or_concat rest with rfl | ⟨rest, last, rfl⟩
    · obtain ⟨rfl, hlast⟩ := List.append_inj' hevents rfl
      exact hreset (congrArg Event.query (List.singleton_inj.mp hlast))
    · rw [List.concat_eq_append, ← List.cons_append, ← List.append_assoc] at hevents
      exact h.resets before r rest (List.append_inj' hevents rfl).1

/-- Other calls change nothing. -/
theorem Descending.snoc_other [Scalar α] [Space α V] {events : List (Event α V)} {e : Event α V}
    (h : Descending events) (hcompute : e.query.isCompute = false)
    (hreset : e.query.isReset = false) : Descending (events ++ [e]) := by
  refine h.snoc (fun y v he => ?_) fun he => ?_
  · rw [he] at hcompute
    cases hcompute
  · rw [he] at hreset
    cases hreset

/-- No remark says that a direction was replaced. -/
def Ledger.Unreplaced (l : Ledger α V) : Prop := ∀ name k, .notDescending name k ∉ l.remarks

namespace Ledger

theorem Unreplaced.push {l : Ledger α V} (h : l.Unreplaced) {r : Remark α}
    (hr : ∀ name k, r ≠ .notDescending name k) :
    Unreplaced { l with remarks := l.remarks.push r } := by
  intro name k hmem
  obtain hmem | hmem := Array.mem_push.mp hmem
  · exact h name k hmem
  · exact hr name k hmem.symm

theorem maintains_own (r : Remark α) (hr : r.isOwn = true) :
    Maintains (Unreplaced (V := V)) (Eval.remark r) := by
  refine fun l hl => .inl (hl.push fun name k h => ?_)
  rw [h] at hr
  cases hr

theorem uncounted_unreplaced : Uncounted (Unreplaced (α := α) (V := V)) :=
  ⟨fun _ => .inl, fun _ => .inl, fun _ => .inl⟩

theorem maintains_asked (r : Request V) :
    Maintains (Unreplaced (α := α)) (Eval.request r) := fun _ => .inl

end Ledger

open Ledger Scene

section Exact
variable [ExactField K] {n : ℕ} {I : σ → Prop}

/-- What keeps a run on its directions: they descend, nobody else says that they do not, and where
the end test fails the gradient is not zero. -/
structure Descent.Steers (d : Descent σ ρ (Exact K) (Vector (Exact K) n) (Matrix (Exact K) n))
    (o : Oracle (Exact K) (Vector (Exact K) n) (Matrix (Exact K) n)) (I : σ → Prop) : Prop where
  reliable : d.strategy.Reliable o I
  descends : d.strategy.Descends o I
  strategy : d.strategy.Preserves o (fun _ => False) Unreplaced
  search : d.search.Preserves o (fun _ => False) Unreplaced
  tests : ∀ x y, d.verdict x y = .ok false → y.gradient ≠ lift 0

namespace Scene
variable {s : Scene σ ρ (Exact K) (Vector (Exact K) n) (Matrix (Exact K) n)}
  {events : List (Event (Exact K) (Vector (Exact K) n))} {g w : Fin n → K}

/-- The events so far, the state of the strategy after them, and what was remarked. -/
structure Told (s : Scene σ ρ (Exact K) (Vector (Exact K) n) (Matrix (Exact K) n))
    (I : σ → Prop) (events : List (Event (Exact K) (Vector (Exact K) n)))
    (t : Flow σ ρ (Exact K) (Vector (Exact K) n) × Ledger (Exact K) (Vector (Exact K) n)) :
    Prop where
  state : I t.1.strategy
  transcript : s.descent.Transcript s.oracle s.begun events t
  descending : Descending events
  unreplaced : t.2.Unreplaced

/-- Some events are told; after a fault nothing is known of the strategy. -/
def Tells (s : Scene σ ρ (Exact K) (Vector (Exact K) n) (Matrix (Exact K) n)) (I : σ → Prop)
    (t : Flow σ ρ (Exact K) (Vector (Exact K) n) × Ledger (Exact K) (Vector (Exact K) n)) : Prop :=
  ∃ events, s.Told I events t

/-- What is told after an answer, and after a fault. -/
def Telling {β : Type} (s : Scene σ ρ (Exact K) (Vector (Exact K) n) (Matrix (Exact K) n))
    (Q : β → Flow σ ρ (Exact K) (Vector (Exact K) n) × Ledger (Exact K) (Vector (Exact K) n) →
      Prop) : Except (Fault (Exact K)) β →
    Flow σ ρ (Exact K) (Vector (Exact K) n) × Ledger (Exact K) (Vector (Exact K) n) → Prop
  | .ok b, t => Q b t
  | .error _, t => s.Tells (fun _ => True) t

theorem Tells.any {t : Flow σ ρ (Exact K) (Vector (Exact K) n) ×
    Ledger (Exact K) (Vector (Exact K) n)} (h : s.Tells I t) :
    s.Tells (fun _ => True) t := by
  obtain ⟨events, h⟩ := h
  exact ⟨events, trivial, h.transcript, h.descending, h.unreplaced⟩

theorem ensures_told_remark {r : Remark (Exact K)} (hr : ∀ name k, r ≠ .notDescending name k) :
    Ensures (s.Told I events)
      (Act.remark r : Act (Flow σ ρ (Exact K) (Vector (Exact K) n)) _ _ _)
      fun u t => u = .ok () ∧ s.Told I events t :=
  fun _ h => ⟨rfl, h.state, h.transcript.remark r, h.descending, h.unreplaced.push hr⟩

/-- A call was entered. -/
def Called (s : Scene σ ρ (Exact K) (Vector (Exact K) n) (Matrix (Exact K) n))
    (I : σ → Prop) (events : List (Event (Exact K) (Vector (Exact K) n)))
    (c : Call (Exact K) (Vector (Exact K) n))
    (t : Flow σ ρ (Exact K) (Vector (Exact K) n) × Ledger (Exact K) (Vector (Exact K) n)) : Prop :=
  ∃ f l, s.Told I events (f, l) ∧ t = ({ f with calls := f.calls.push c }, l)

theorem ensures_called (c : Call (Exact K) (Vector (Exact K) n)) :
    Ensures (s.Told I events) (Descent.note c)
      fun u t => u = .ok () ∧ s.Called I events c t :=
  fun t h => ⟨rfl, t.1, t.2, h, rfl⟩

omit [ExactField K] in
/-- What the strategy does is known from its own state. -/
theorem surely_served {β : Type} {c : Act σ (Exact K) (Vector (Exact K) n) β}
    {R : β → σ × Ledger (Exact K) (Vector (Exact K) n) → Prop}
    (h : Ensures (fun t => I t.1) c (Surely R)) :
    Ensures (fun t => I t.1.strategy) (Descent.ask c : Act (Flow σ ρ _ _) _ _ β)
      (Surely fun b t => R b (t.1.strategy, t.2)) :=
  fun t ht => (Surely.imp (surely_ask h) fun _ _ hb => hb.1) t ⟨ht, rfl⟩

/-- A run goes on from a finite gradient other than zero. -/
def Onward (s : Scene σ ρ (Exact K) (Vector (Exact K) n) (Matrix (Exact K) n))
    (I : σ → Prop) (t : Progress (Exact K) (Vector (Exact K) n))
    (τ : Flow σ ρ (Exact K) (Vector (Exact K) n) × Ledger (Exact K) (Vector (Exact K) n)) : Prop :=
  (∃ g, g ≠ 0 ∧ t.current.gradient = lift g) ∧ s.Tells I τ

/-- What has become of an iteration. -/
abbrev Onwards (s : Scene σ ρ (Exact K) (Vector (Exact K) n) (Matrix (Exact K) n))
    (I : σ → Prop) : Except (Fault (Exact K))
      (Progress (Exact K) (Vector (Exact K) n) ⊕ Stop (Exact K) (Vector (Exact K) n)) →
    Flow σ ρ (Exact K) (Vector (Exact K) n) × Ledger (Exact K) (Vector (Exact K) n) → Prop :=
  Rounded (s.Onward I) (fun _ => s.Tells fun _ => True)
    fun _ => s.Tells fun _ => True

end Scene

namespace Descent.Steers
variable {s : Scene σ ρ (Exact K) (Vector (Exact K) n) (Matrix (Exact K) n)}
  {events : List (Event (Exact K) (Vector (Exact K) n))} {g w : Fin n → K}
  (hd : s.descent.Steers s.oracle I)
include hd

/-- A call is answered; what its answer and the new state of the strategy have is known from the
strategy, and the events are in order if that makes them so. -/
theorem ensures_answer (q : Query (Exact K) (Vector (Exact K) n))
    {R : Except (Fault (Exact K)) q.Answer → σ → Prop}
    (hq : Ensures (fun t => I t.1.strategy) (s.descent.serve s.oracle q)
      fun r t => R r t.1.strategy)
    (hevents : ∀ r s, R r s → Descending events → Descending (events ++ [⟨q, r⟩])) :
    Ensures (s.Called I events q.call) (s.descent.serve s.oracle q) fun r t =>
      R r t.1.strategy ∧ s.Told (fun _ => True) (events ++ [⟨q, r⟩]) t := by
  rintro _ ⟨f, l, h, rfl⟩
  have hanswer := hq ({ f with calls := f.calls.push q.call }, l) h.state
  have hremarks := maintains_iff.mp (preserves_serve hd.strategy hd.search q)
    ({ f with calls := f.calls.push q.call }, l) h.unreplaced
  exact ⟨hanswer, trivial, h.transcript.call ⟨q, _⟩ rfl, hevents _ _ hanswer h.descending, hremarks⟩

/-- The same for a call after which the state of the strategy is known. -/
theorem surely_answer (q : Query (Exact K) (Vector (Exact K) n)) {J : q.Answer → Prop}
    (hq : Ensures (fun t => I t.1.strategy) (s.descent.serve s.oracle q)
      (Surely fun a t => J a ∧ I t.1.strategy))
    (hevents : ∀ r, Descending events → Descending (events ++ [⟨q, r⟩])) :
    Ensures (s.Called I events q.call) (s.descent.serve s.oracle q) (Surely fun a t =>
      J a ∧ s.Told I (events ++ [⟨q, .ok a⟩]) t) := by
  refine .mono (hd.ensures_answer q
    (R := fun r s => ∃ a, r = .ok a ∧ J a ∧ I s) ?_ fun r _ _ => hevents r) (fun _ h => h) ?_
  · refine .mono hq (fun _ h => h) fun r t hr => ?_
    cases r with
    | ok a => exact ⟨a, rfl, hr⟩
    | error f => exact hr.elim
  · rintro _ t ⟨⟨a, rfl, hJ, hI⟩, h⟩
    exact ⟨hJ, hI, h.transcript, h.descending, h.unreplaced⟩

theorem surely_reset (hfailed : FollowsFailure events) :
    Ensures (s.Told I events) s.descent.reset (Surely fun _ t => s.Tells I t) := by
  refine .bind (ensures_called .reset) (fun _ => .of_fact fun _ => ?_) fun _ _ h => by cases h.1
  have hreset : Ensures (fun t => I t.1.strategy) (s.descent.serve s.oracle .reset)
      (Surely fun _ t => True ∧ I t.1.strategy) :=
    Surely.imp (surely_served hd.reliable.reset) fun _ _ h => ⟨trivial, h⟩
  refine Surely.imp (hd.surely_answer .reset hreset fun r h => h.snoc (fun _ _ he => ?_)
    fun _ => hfailed) fun _ t h => ⟨_, h.2⟩
  cases he

/-- The direction of an iteration is that of the strategy. -/
theorem ensures_propose (t : Progress (Exact K) (Vector (Exact K) n)) (hg : g ≠ 0)
    (ht : t.current.gradient = lift g) :
    Ensures (s.Tells I) (s.descent.propose s.oracle t) (s.Telling fun r τ =>
      s.Tells I τ ∧ ∀ v, r = .ok v → ∃ w, v = lift w ∧ g ⬝ᵥ w < 0) := by
  rintro τ ⟨events, hτ⟩
  refine (?_ : Ensures (s.Told I events) _ _) τ hτ
  refine .bind (ensures_called .compute) (fun _ => .of_fact fun _ => ?_) fun _ _ h => by cases h.1
  have hcompute : Ensures (fun t => I t.1.strategy)
      (s.descent.serve s.oracle (.compute t.current)) fun r τ =>
      (∀ v, r = .ok v → Space.inner t.current.gradient v < 0) ∧ I τ.1.strategy := by
    intro τ hτ
    have hkeeps := hd.reliable.compute t.current g ht (τ.1.strategy, τ.2) hτ
    have hdescends := hd.descends t.current g hg ht (τ.1.strategy, τ.2) hτ
    have hrun : ((s.descent.serve s.oracle (.compute t.current)).run.run τ).1 =
        ((s.descent.strategy.compute s.oracle t.current).run.run (τ.1.strategy, τ.2)).1 := rfl
    rw [hrun]
    rcases hr : ((s.descent.strategy.compute s.oracle t.current).run.run
      (τ.1.strategy, τ.2)).1 with f | v <;> rw [hr] at hkeeps hdescends
    · exact ⟨fun _ h => (by cases h), hkeeps.2⟩
    · exact ⟨fun _ h => (by cases h; exact hdescends), hkeeps⟩
  have hanswer := ensures_guarded (hd.ensures_answer (.compute t.current)
    (R := fun r s => (∀ v, r = .ok v → Space.inner t.current.gradient v < 0) ∧ I s) hcompute
    fun r s hr (h : Descending events) =>
      h.snoc (fun y v he => by cases he; exact hr.1 v rfl) fun he => by cases he)
  refine .bind hanswer (fun r => ?_) fun f τ hτ => ⟨_, hτ.2⟩
  rcases r with f | v
  · exact .pure fun τ hτ => ⟨⟨_, hτ.1.2, hτ.2.transcript, hτ.2.descending, hτ.2.unreplaced⟩,
      fun _ h => by cases h⟩
  · refine .mono (P := fun τ => Space.inner t.current.gradient v < 0 ∧ s.Tells I τ) ?_
      (fun τ hτ => ⟨hτ.1.1 v rfl, _, hτ.1.2, hτ.2.transcript, hτ.2.descending, hτ.2.unreplaced⟩)
      fun _ _ h => h
    refine .of_fact fun hneg => .ite (fun hfin => ?_) fun _ =>
      .pure fun τ hτ => ⟨hτ, fun _ h => by cases h⟩
    refine Act.ensures_ofExcept_bind (Space.dot?_vector _ _) (.ite (fun _ => ?_)
      fun hno => absurd hneg hno)
    obtain ⟨w, rfl⟩ := exists_lift hfin
    rw [ht, Space.inner_vector, dot_lift] at hneg
    exact .pure fun τ hτ => ⟨hτ, fun _ h => by cases h; exact ⟨w, rfl, number_lt.mp hneg⟩⟩

/-- A search is the last event so far. -/
theorem ensures_searchAlong {x : Iterate (Exact K) (Vector (Exact K) n)} (hg : g ≠ 0)
    (hx : x.gradient = lift g) (hw : g ⬝ᵥ w < 0) :
    Ensures (s.Tells I) (s.descent.searchAlong s.oracle x (lift w)) (s.Telling fun step τ =>
      ∃ before asked, s.Told I (before ++ [⟨.search ⟨x, lift w⟩ asked, .ok step⟩]) τ) := by
  rintro τ ⟨events, hτ⟩
  refine (?_ : Ensures (s.Told I events) _ _) τ hτ
  have hasked : Ensures (fun t => I t.1.strategy)
      (s.descent.serve s.oracle (.initialStep x.gradient (lift w)))
      (Surely fun _ t => True ∧ I t.1.strategy) := by
    rw [hx]
    exact Surely.imp (surely_served (hd.reliable.initialStep g w hg hw)) fun _ _ h =>
      ⟨trivial, h.1⟩
  refine .bind (ensures_called (.initialStep x.gradient (lift w))) (fun _ => .of_fact fun _ => ?_)
    fun _ _ h => by cases h.1
  refine Surely.bind (hd.surely_answer (.initialStep x.gradient (lift w)) hasked
    fun r h => h.snoc_other rfl rfl) fun asked => ?_
  refine .of_fact fun _ => ?_
  refine .bind (ensures_called (.search (lift w))) (fun _ => .of_fact fun _ => ?_)
    fun _ _ h => by cases h.1
  have hsearch : Ensures (fun t => I t.1.strategy)
      (s.descent.serve s.oracle (.search ⟨x, lift w⟩ asked)) fun _ t => I t.1.strategy :=
    fun t ht => ht
  refine .mono (hd.ensures_answer (.search ⟨x, lift w⟩ asked) (R := fun _ s => I s) hsearch
    fun r s _ h => h.snoc_other rfl rfl) (fun _ h => h)
    fun r τ hτ => ?_
  cases r with
  | error f => exact ⟨_, hτ.2⟩
  | ok step => exact ⟨_, asked, hτ.1, hτ.2.transcript, hτ.2.descending, hτ.2.unreplaced⟩

theorem ensures_explore (t : Progress (Exact K) (Vector (Exact K) n)) (hg : g ≠ 0)
    (ht : t.current.gradient = lift g) (hw : g ⬝ᵥ w < 0) :
    Ensures (s.Tells I) (s.descent.explore s.oracle t (lift w)) (s.Telling fun r τ =>
      (∃ w, r.1 = lift w) ∧ s.Tells I τ) := by
  refine .bind (hd.ensures_searchAlong hg ht hw) (fun step => ?_) fun _ _ h => h
  rintro τ ⟨before, asked, hτ⟩
  refine (?_ : Ensures (s.Told I _) _ _) τ hτ
  refine .ite (fun _ => .pure fun τ hτ => ⟨⟨w, rfl⟩, _, hτ⟩) fun hfailed => ?_
  have hfailed : step.success = false := by
    rw [Bool.or_eq_true, not_or] at hfailed
    exact Bool.eq_false_iff.mpr hfailed.1
  refine .bind (ensures_told_remark (by simp)) (fun _ => .of_fact fun _ => ?_)
    fun _ _ h => by cases h.1
  refine Surely.bind (hd.surely_reset ⟨before, _, asked, step, rfl, hfailed⟩) fun _ => ?_
  rw [ht, neg_lift]
  refine .bind (hd.ensures_searchAlong hg ht (by simpa using dotProduct_self_pos hg))
    (fun step => .pure ?_) fun _ _ h => h
  rintro τ ⟨before, asked, hτ⟩
  exact ⟨⟨-g, rfl⟩, _, hτ⟩

theorem ensures_take (t : Progress (Exact K) (Vector (Exact K) n)) (hg : g ≠ 0)
    (ht : t.current.gradient = lift g) (step : Step (Exact K) (Vector (Exact K) n)) :
    Ensures (s.Tells I) (s.descent.take t (lift w) step) (s.Onwards I) := by
  refine .ite (fun hfin => ?_) fun _ => .pure fun τ hτ => hτ.any
  simp only [finiteStep, Bool.and_eq_true] at hfin
  obtain ⟨g', hg'⟩ := exists_lift hfin.2
  refine Act.ensures_ofExcept_bind (Space.difference?_vector _ _) ?_
  refine Act.ensures_ofExcept_bind (Space.difference?_vector _ _) ?_
  rintro τ ⟨events, hτ⟩
  refine (?_ : Ensures (s.Told I events) _ _) τ hτ
  let q : Query (Exact K) (Vector (Exact K) n) :=
    .update (step.reached.point - t.current.point) (step.reached.gradient - t.current.gradient)
      step.reached.gradient step.alpha (lift w)
  have hupdate : Ensures (fun t => I t.1.strategy) (s.descent.serve s.oracle q)
      (Surely fun _ t => True ∧ I t.1.strategy) := by
    have h := surely_served (ρ := ρ) (hd.reliable.update
      (step.reached.point - t.current.point) g g' w step.alpha hg)
    rw [← hg', ← ht] at h
    exact Surely.imp h fun _ _ h => ⟨trivial, h⟩
  refine .bind (ensures_called q.call) (fun _ => .of_fact fun _ => ?_) fun _ _ h => by cases h.1
  refine Surely.bind (hd.surely_answer q hupdate fun r h => h.snoc_other rfl rfl) fun _ => ?_
  refine .of_fact fun _ => ?_
  refine .bind (ensures_told_remark (by simp)) (fun _ => .of_fact fun _ => ?_)
    fun _ _ h => by cases h.1
  refine Surely.bind (R := fun _ => s.Tells I) (fun τ hτ => ⟨_, hτ.state,
    hτ.transcript.accept step.reached, hτ.descending, hτ.unreplaced⟩) fun _ => ?_
  rcases hdone : s.descent.verdict t.current step.reached with f | done
  · rw [converged, show s.descent.problem.converged _ _ _ _ = .error f from hdone]
    exact fun _ hτ => hτ.any
  refine Act.ensures_ofExcept_bind hdone ?_
  cases done with
  | true => exact .pure fun τ hτ => hτ.any
  | false =>
    refine .pure fun τ hτ => ⟨⟨g', ?_, hg'⟩, hτ⟩
    rintro rfl
    exact hd.tests _ _ hdone hg'

theorem ensures_iterate (t : Progress (Exact K) (Vector (Exact K) n)) :
    Ensures (s.Onward I t) (s.descent.iterate s.oracle t) (s.Onwards I) := by
  refine .of_fact fun ⟨g, hg, ht⟩ => ?_
  refine .bind (hd.ensures_propose t hg ht) (fun r => ?_) fun _ _ h => h
  rcases r with message | v
  · exact .pure fun τ hτ => hτ.1.any
  refine .of_known (fun τ hτ => ⟨hτ.2 v rfl, hτ.1⟩) fun ⟨w, hv, hw⟩ => ?_
  subst hv
  refine .bind (ensures_guarded (hd.ensures_explore t hg ht hw)) (fun r => ?_) fun _ _ h => h
  rcases r with f | ⟨v, step⟩
  · exact .pure fun τ hτ => hτ
  refine .of_fact fun ⟨w, hv⟩ => ?_
  have hv : v = lift w := hv
  subst hv
  exact .ite (fun _ => hd.ensures_take t hg ht step) fun _ => .pure fun τ hτ => hτ.any

end Descent.Steers

/-- Without a dimension every gradient is zero, and the end test is met at the start. -/
theorem Scene.ensures_directed
    {s : Scene σ ρ (Exact K) (Vector (Exact K) n) (Matrix (Exact K) n)} {g : Fin n → K}
    (htests : ∀ x y, s.descent.verdict x y = .ok false → y.gradient ≠ lift 0)
    (hd : 0 < n → s.descent.Steers s.oracle I) (hstart : s.start.gradient = lift g) :
    Ensures (s.Tells I) (s.descent.pursue s.oracle s.start) fun _ => s.Tells fun _ => True := by
  rcases hdone : s.descent.verdict s.start s.start with f | done
  · rw [Descent.pursue, Descent.converged,
      show s.descent.problem.converged _ _ _ _ = .error f from hdone]
    exact fun _ hτ => hτ.any
  refine Act.ensures_ofExcept_bind hdone ?_
  cases done with
  | true => exact .pure fun τ hτ => hτ.any
  | false =>
    have hg : g ≠ 0 := by
      rintro rfl
      exact htests _ _ hdone hstart
    have hn : 0 < n := by
      refine Nat.pos_of_ne_zero fun hn => hg ?_
      subst hn
      exact Subsingleton.elim _ _
    refine .bind (.mono (.upTo (fun t => (hd hn).ensures_iterate t) _ _)
      (fun τ hτ => ⟨⟨g, hg, hstart⟩, hτ⟩) fun _ _ h => h) (fun r => ?_) fun _ _ h => h
    cases r with
    | inl t => exact .pure fun τ hτ => hτ.2.any
    | inr stop => exact .pure fun τ hτ => hτ

end Exact

namespace Plan
variable [ExactField K] {n : ℕ} {plan : Plan (Exact K)} {config : Config (Exact K)}
  {p : Problem (Exact K) (Vector (Exact K) n) (Matrix (Exact K) n)}

/-- The directions of a plan descend, if the shifts of its Hessians are numbers. -/
theorem descends [SoundRoot K]
    (hshift : ∀ s, plan = .newton s →
      Scalar.isFinite s.beta = true ∧ Scalar.isFinite s.growth = true)
    (o : Oracle (Exact K) (Vector (Exact K) n) (Matrix (Exact K) n)) :
    let s : Strategist (Exact K) (Vector (Exact K) n) (Matrix (Exact K) n) := plan.strategist
    s.strategy.Descends o plan.Invariant := by
  cases plan with
  | newton s => exact s.descends (hshift s rfl).1 (hshift s rfl).2 o
  | conjugateGradient s => exact s.descends o
  | quasiNewton s => exact s.descends o

/-- Whatever the state was, a strategy that is prepared has its invariant. -/
theorem invariant_of_prepare
    (hthreshold : ∀ s, plan = .quasiNewton s → 0 ≤ s.threshold)
    {o : Oracle (Exact K) (Vector (Exact K) n) (Matrix (Exact K) n)}
    {start : Iterate (Exact K) (Vector (Exact K) n)}
    {state prepared :
      (plan.strategist : Strategist _ (Vector (Exact K) n) (Matrix (Exact K) n)).State}
    (h : plan.strategist.strategy.prepare o start state = .ok prepared) :
    plan.Invariant prepared := by
  cases plan with
  | newton s => trivial
  | conjugateGradient s =>
    cases h
    exact ConjugateGradient.sensible_of_none rfl
  | quasiNewton s => exact QuasiNewton.exists_sound_of_begin (hthreshold s rfl) h

/-- The ordinary end test does not go on at a gradient of zero. -/
theorem tests_of_gradientTest [SoundRoot K]
    {d : Descent σ ρ (Exact K) (Vector (Exact K) n) (Matrix (Exact K) n)}
    (htest : d.problem.converged = gradientTest) (htolerance : 0 < d.config.tolerance)
    (x y : Iterate (Exact K) (Vector (Exact K) n)) (h : d.verdict x y = .ok false) :
    y.gradient ≠ lift 0 := by
  intro hzero
  rw [Descent.verdict, htest, hzero, gradientTest_zero htolerance] at h
  cases h

/-- A run with a strategy and a search of the library never replaces a direction: every direction
that the strategy gives descends, no remark says otherwise, and the strategy is reset only right
after a search that failed. This is for every problem that raises no fault, with the ordinary end
test and a positive tolerance, from every start and with a strategy in any state, if the threshold
of curvature pairs is not negative and the shifts of Hessians are numbers; a run that ends in a
fault is no exception. -/
theorem run_never_replaces [SoundRoot K] (plan : Plan (Exact K)) (s : LineSearch (Exact K))
    (config : Config (Exact K))
    (hthreshold : ∀ s, plan = .quasiNewton s → 0 ≤ s.threshold)
    (hshift : ∀ s, plan = .newton s →
      Scalar.isFinite s.beta = true ∧ Scalar.isFinite s.growth = true)
    (hp : p.Total) (htest : p.converged = gradientTest) (htolerance : 0 < config.tolerance)
    (x : Vector (Exact K) n)
    (state : (plan.strategist : Strategist _ (Vector (Exact K) n) (Matrix (Exact K) n)).State) :
    let d := plan.descent p s.searcher config
    let record := d.run x state ()
    record.ledger.Unreplaced ∧
    ∀ start prepared, d.opened x = .ok (.inl start) →
      d.strategy.prepare (d.work n) start state = .ok prepared →
      ∃ events ledger, record.flow.calls.toList = .prepare :: events.map Event.call ∧
        d.Transcript (d.work n)
          (.start prepared () #[.prepare], (Descent.openAt (d.work n) x).start.2) events
          (record.flow, ledger) ∧
        (∀ y direction, ⟨.compute y, .ok direction⟩ ∈ events →
          Space.inner y.gradient direction < 0) ∧
        ∀ before r rest, events = before ++ ⟨.reset, r⟩ :: rest →
          ∃ earlier ray asked step, before = earlier ++ [⟨.search ray asked, .ok step⟩] ∧
            step.success = false := by
  intro d record
  have hvalue := fun y => uncounted_unreplaced.work_value (n := n) p d.strategy.needsHessian y
    (maintains_asked _)
  have hgradient := fun y => uncounted_unreplaced.work_gradient (n := n) p d.strategy.needsHessian y
    (maintains_asked _)
  have hhessian := fun y => uncounted_unreplaced.work_hessian (n := n) p d.strategy.needsHessian y
    (maintains_asked _)
  have hsteers : 0 < n → d.Steers (d.work n) plan.Invariant := fun hn =>
    { reliable := plan.reliable hn hp
      descends := plan.descends hshift _
      strategy := plan.preserves maintains_own hhessian
      search := s.preserves hvalue hgradient
      tests := tests_of_gradientTest htest htolerance }
  have hopening : (Descent.openAt (d.work n) x).start.2.Unreplaced :=
    maintains_iff.mp (Descent.preserves_openAt hvalue hgradient x) {}
      fun _ _ h => absurd h (Array.not_mem_empty _)
  have hclose : ∀ r flow l, l.Unreplaced → (d.close x r flow l).ledger.Unreplaced := by
    intro r flow l hl
    cases r with
    | error f => exact hl
    | ok stop => exact hl.push fun _ _ h => by cases h
  obtain ⟨r, t, hrun, ⟨ht, hnever⟩ | ⟨start, prepared, hopened, hprepare, hpursue⟩⟩ :=
    d.exists_close x state ()
  · exact ⟨(congrArg Record.ledger hrun) ▸ hclose _ _ _ (ht ▸ hopening),
      fun start prepared hstart hready => absurd hready (hnever start prepared hstart)⟩
  obtain ⟨g, hg⟩ := exists_lift (Descent.opened_finite hopened).2.2.2
  let scene : Scene _ _ (Exact K) (Vector (Exact K) n) (Matrix (Exact K) n) :=
    ⟨d, d.work n, (.start prepared () #[.prepare], (Descent.openAt (d.work n) x).start.2), start⟩
  obtain ⟨events, -, htranscript, hdescending, hunreplaced⟩ :=
    Scene.ensures_directed (s := scene) (tests_of_gradientTest htest htolerance) hsteers hg
      scene.begun ⟨[], invariant_of_prepare hthreshold hprepare, .begin, .nil, hopening⟩
  rw [show (scene.descent.pursue scene.oracle scene.start).run.run scene.begun = (r, t)
    from hpursue] at htranscript hunreplaced
  refine ⟨(congrArg Record.ledger hrun) ▸ hclose _ _ _ hunreplaced,
    fun start' prepared' hstart hready => ?_⟩
  obtain rfl := Sum.inl.inj (Except.ok.inj (hopened.symm.trans hstart))
  obtain rfl := Except.ok.inj (hprepare.symm.trans hready)
  have hflow : record.flow = t.1 := by rw [show record = _ from hrun, Descent.flow_close]
  rw [hflow]
  exact ⟨events, t.2, htranscript.calls_eq, htranscript, hdescending.directions, hdescending.resets⟩

/-- A curvature pair makes the second direction shorter than the steepest one. The search, which
makes one trial only, fails along it; the strategy is reset, and the search fails again. -/
theorem run_never_replaces_failed :
    let q : QuasiNewton (Exact ℚ) := ⟨1, 0⟩
    let s : LineSearch (Exact ℚ) := .backtracking ⟨1, 0.5, 0.6, 1, 0⟩
    let d := (Plan.quasiNewton q).descent LineSearch.bowl s.searcher ⟨9, 1e-6, false⟩
    let record := d.run #v[0, 0] QuasiNewton.fresh ()
    let g : Vector (Exact ℚ) 2 := #v[number (-3 / 4), number (-3 / 4)]
    let v : Vector (Exact ℚ) 2 := #v[number (1 / 4), number (1 / 4)]
    record.flow.calls.toList = [.prepare, .compute, .initialStep #v[-3, -3] #v[3, 3],
      .search #v[3, 3], .update (-g) #v[number (9 / 4), number (9 / 4)] g (number (1 / 4)) #v[3, 3],
      .compute, .initialStep g v, .search v, .reset, .initialStep g (-g), .search (-g)] ∧
    record.ledger.Unreplaced ∧
      ∃ events, record.flow.calls.toList = .prepare :: events.map Event.call ∧
        Descending events := by
  intro q s d record g v
  have hp : LineSearch.bowl.Total := by
    refine ⟨fun x => ⟨_, rfl, trivial⟩, ?_, ?_⟩
    · rintro _ ⟨⟩ x
      exact ⟨_, rfl, trivial⟩
    · rintro _ ⟨⟩ x
      exact ⟨_, rfl, trivial⟩
  obtain ⟨hunreplaced, hrun⟩ := run_never_replaces (.quasiNewton q) s ⟨9, 1e-6, false⟩
    (fun s' hs => by cases hs; exact number_le.mpr le_rfl) (fun s' hs => by cases hs) hp rfl
    (number_lt.mpr (by norm_num)) #v[0, 0] QuasiNewton.fresh
  have hstart : d.opened #v[0, 0] = .ok (.inl ⟨#v[0, 0], 0, #v[-3, -3]⟩) := by decide +kernel
  obtain ⟨events, ledger, hcalls, -, hdirections, hresets⟩ := hrun _ _ hstart rfl
  exact ⟨by decide +kernel, hunreplaced, events, hcalls, hdirections, hresets⟩

end Plan

end Downhill
