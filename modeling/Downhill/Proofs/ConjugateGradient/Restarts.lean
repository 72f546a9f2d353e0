import Downhill.Descent.Script
import Downhill.Direction.ConjugateGradient
import Downhill.Proofs.Descent.Answers
import Downhill.Proofs.Descent.Course
import Downhill.Proofs.Exact.Vector
import Downhill.Proofs.LineSearch.Family

/-! The restarts of conjugate gradients, in any arithmetic and with any search. The strategy counts
the steps that were accepted since it last went along steepest descent; a run may replace its
direction behind its back, but resets it where it does. So the last steps, as many as are counted,
begin with one along steepest descent, and there are never more of them than the interval allows. -/
namespace Downhill
variable {σ ρ α V M : Type} [Scalar α] [Space α V]

/-- An accepted step: where it began, along which direction, and where it led. -/
structure Move (α V : Type) where
  start : Iterate α V
  direction : V
  reached : Iterate α V

/-- The step went along exactly the opposite of the gradient. -/
def Move.Steepest (m : Move α V) : Prop := m.direction = -m.start.gradient

namespace Event

/-- A step is accepted: the strategy was told of it. -/
def isStep : Event α V → Bool
  | ⟨.update .., .ok _⟩ => true
  | _ => false

end Event

namespace Phase

omit [Scalar α] [Space α V] in
/-- The step that is accepted with an event. -/
def moved? : Phase α V → Event α V → Option (Move α V)
  | searched x direction _ step, ⟨.update .., .ok _⟩ => some ⟨x, direction, step.reached⟩
  | _, _ => none

/-- The steps that are accepted in the course of some events. -/
def moves (p : Phase α V) : List (Event α V) → List (Move α V)
  | [] => []
  | e :: events => (p.moved? e).toList ++ (p.answered e).moves events

omit [Scalar α] in
theorem moves_append (p : Phase α V) (es fs : List (Event α V)) :
    p.moves (es ++ fs) = p.moves es ++ (p.along es).moves fs := by
  induction es generalizing p with
  | nil => rfl
  | cons e es ih => simp [moves, ih, along]

omit [Scalar α] in
theorem moves_snoc (p : Phase α V) (events : List (Event α V)) (e : Event α V) :
    p.moves (events ++ [e]) = p.moves events ++ ((p.along events).moved? e).toList := by
  simp [moves_append, moves]

/-- A step leads to the iterate that is accepted with it. -/
theorem accepted?_answered {p : Phase α V} {e : Event α V} (h : Due p e.query) :
    (p.answered e).accepted? = (p.moved? e).map Move.reached := by
  rcases e with ⟨q, f | answer⟩
  · cases h <;> rfl
  · cases h <;> rfl

theorem accepted_eq_map_moves {p : Phase α V} {events : List (Event α V)} (h : p.Obeys events) :
    p.accepted events = (p.moves events).map Move.reached := by
  induction events generalizing p with
  | nil => rfl
  | cons e events ih =>
    rw [accepted, moves, accepted?_answered (due_of_eq_some h.1), ih h.2]
    cases p.moved? e <;> rfl

end Phase

/-- Among any `r` consecutive steps there is one along steepest descent. -/
def Spaced (r : ℕ) (moves : List (Move α V)) : Prop :=
  ∀ window, window <:+: moves → window ≠ [] → r ≤ window.length → ∃ m ∈ window, m.Steepest

section Spaced
variable {r : ℕ} {moves recent : List (Move α V)} {m : Move α V}

omit [Scalar α] in
theorem spaced_nil : Spaced r ([] : List (Move α V)) := by
  intro window hwindow hne
  exact absurd (List.infix_nil.mp hwindow) hne

omit [Scalar α] in
/-- One more step, if one of the last steps goes along steepest descent and there are not more of
them than `r`. -/
theorem Spaced.snoc (h : Spaced r moves) (hrecent : recent <:+ moves ++ [m])
    (hlength : recent.length ≤ max r 1) (hsteep : ∃ m ∈ recent, m.Steepest) :
    Spaced r (moves ++ [m]) := by
  intro window hwindow hne hle
  rcases List.infix_concat_iff.mp hwindow with hlast | hbefore
  · have hpos : 1 ≤ window.length := List.length_pos_iff.mpr hne
    have hinside : recent <:+ window :=
      List.suffix_of_suffix_length_le hrecent hlast (hlength.trans (max_le hle hpos))
    obtain ⟨m, hm, hsteep⟩ := hsteep
    exact ⟨m, hinside.subset hm, hsteep⟩
  · exact h window hbefore hne hle

omit [Scalar α] in
theorem Spaced.of_one (h : Spaced 1 moves) : ∀ m ∈ moves, m.Steepest := by
  intro m hm
  obtain ⟨m', hm', hsteep⟩ :=
    h [m] ((List.singleton_infix_iff m moves).mpr hm) (List.cons_ne_nil _ _) le_rfl
  rwa [List.mem_singleton.mp hm'] at hsteep

end Spaced

namespace ConjugateGradient

section Calls
variable (s : ConjugateGradient) (st : State α V) (g : V)

/-- The state after a restart. -/
def State.restarted (st : State α V) : State α V :=
  { st with restarts := st.restarts + 1, sinceRestart := 0 }

omit [Scalar α] in
theorem perform_restart (reason : Restart) (l : Ledger α V) : (restart g reason).perform st l =
    (.ok (-g), st.restarted, { l with remarks := l.remarks.push (.restarted reason) }) := rfl

/-- What the strategy does when it is asked for a direction at the gradient `g`: it goes along
steepest descent because it remembers nothing, it restarts for a reason that it remarks, it turns
the last direction, or that has a fault. -/
inductive Directs : Prop
  | fresh (forgot : st.memory = none) (run : ∀ l, (s.direction g).perform st l = (.ok (-g), st, l))
  | restarted (reason : Restart) (remembers : st.memory ≠ none)
      (run : ∀ l, (s.direction g).perform st l =
        (.ok (-g), st.restarted, { l with remarks := l.remarks.push (.restarted reason) }))
  | turned (direction : V) (remembers : st.memory ≠ none) (early : st.sinceRestart < st.interval)
      (run : ∀ l, (s.direction g).perform st l = (.ok direction, st, l))
  | failed (fault : Fault α) (early : st.sinceRestart < st.interval)
      (run : ∀ l, (s.direction g).perform st l = (.error fault, st, l))

theorem directs : Directs s st g := by
  cases hmemory : st.memory with
  | none =>
    refine .fresh hmemory fun l => ?_
    simp [direction, Act.perform_bind, hmemory]
  | some last =>
    have hremembers : st.memory ≠ none := by simp [hmemory]
    by_cases hdue : st.interval ≤ st.sinceRestart
    · refine .restarted .periodic hremembers fun l => ?_
      simp [direction, perform_restart, Act.perform_bind, hmemory, hdue]
    have hearly : st.sinceRestart < st.interval := not_le.mp hdue
    cases hbeta : beta s.rule last g with
    | error f =>
      refine .failed f hearly fun l => ?_
      simp [direction, Act.perform_bind, hmemory, hdue, hbeta]
    | ok b =>
      by_cases hb : 0 < b
      case neg =>
        refine .restarted .noConjugacy hremembers fun l => ?_
        simp [direction, perform_restart, Act.perform_bind, hmemory, hdue, hbeta, hb]
      cases hsum : (Space.sum? (-g) (b * last.direction) : Except (Fault α) V) with
      | error f =>
        refine .failed f hearly fun l => ?_
        simp [direction, Act.perform_bind, hmemory, hdue, hbeta, hb, hsum]
      | ok d =>
        cases hslope : (Space.product? g d : Except (Fault α) α) with
        | error f =>
          refine .failed f hearly fun l => ?_
          simp [direction, Act.perform_bind, hmemory, hdue, hbeta, hb, hsum, hslope]
        | ok slope =>
          by_cases hdown : slope < 0
          · refine .turned d hremembers hearly fun l => ?_
            simp [direction, Act.perform_bind, hmemory, hdue, hbeta, hb, hsum, hslope, hdown]
          · refine .restarted .notDescending hremembers fun l => ?_
            simp [direction, perform_restart, Act.perform_bind, hmemory, hdue, hbeta, hb,
              hsum, hslope, hdown]

/-- What the strategy does when it is told of a step: the step is remembered and counted, or forming
its change or its slope has a fault. -/
inductive Records (y gradient : V) (alpha : α) (d : V) : Prop
  | counted (last : Memory α V) (slope : α)
      (run : ∀ l, (record y gradient alpha d).perform st l = (.ok (),
        { st with memory := some last, slope, sinceRestart := st.sinceRestart + 1 }, l))
  | unchanged (fault : Fault α)
      (run : ∀ l, (record y gradient alpha d).perform st l = (.error fault, st, l))
  | remembered (fault : Fault α) (last : Memory α V)
      (run : ∀ l, (record y gradient alpha d).perform st l =
        (.error fault, { st with memory := some last }, l))

omit [Scalar α] in
theorem records (y gradient : V) (alpha : α) (d : V) : Records st y gradient alpha d := by
  cases hprevious : (Space.difference? gradient y : Except (Fault α) V) with
  | error f =>
    refine .unchanged f fun l => ?_
    simp [record, Act.perform_bind, hprevious]
  | ok previous =>
    cases hslope : (Space.product? previous d : Except (Fault α) α) with
    | error f =>
      refine .remembered f ⟨d, previous, alpha⟩ fun l => ?_
      simp [record, Act.perform_bind, hprevious, hslope]
    | ok slope =>
      refine .counted ⟨d, previous, alpha⟩ slope fun l => ?_
      simp [record, Act.perform_bind, hprevious, hslope]

/-- The call is answered by a restart, which the strategy remarks. -/
def restarts : Query α V → Bool
  | .compute x => ((s.direction x.gradient).perform st {}).2.2.remarks.any fun
    | .restarted _ => true
    | _ => false
  | _ => false

/-- The count of steps begins anew with the call. -/
def startsOver (q : Query α V) : Bool := s.restarts st q || q.isReset

/-- The state after a call. -/
def next : Query α V → State α V
  | .compute x => ((s.direction x.gradient).perform st {}).2.1
  | .update _ y gradient alpha direction => ((record y gradient alpha direction).perform st {}).2.1
  | .reset => { st.cleared with restarts := st.restarts + 1 }
  | .initialStep .. | .search .. => st

theorem next_compute (x : Iterate α V) :
    s.next st (.compute x) = if s.restarts st (.compute x) then st.restarted else st := by
  cases s.directs st x.gradient with
  | fresh forgot run => simp [next, restarts, run]
  | restarted reason remembers run => simp [next, restarts, run]
  | turned direction remembers early run => simp [next, restarts, run]
  | failed fault early run => simp [next, restarts, run]

/-- The state after the calls of some events. -/
def replay (events : List (Event α V)) : State α V :=
  events.foldl (fun st e => s.next st e.query) st

theorem replay_snoc (events : List (Event α V)) (e : Event α V) :
    s.replay st (events ++ [e]) = s.next (s.replay st events) e.query := by
  simp [replay]

/-- Every event, with the state in which it finds the strategy. -/
def stages : State α V → List (Event α V) → List (State α V × Event α V)
  | _, [] => []
  | st, e :: events => (st, e) :: stages (s.next st e.query) events

theorem stages_snoc (events : List (Event α V)) (e : Event α V) :
    s.stages st (events ++ [e]) = s.stages st events ++ [(s.replay st events, e)] := by
  induction events generalizing st with
  | nil => rfl
  | cons e' events ih => simp [stages, ih, replay]

/-- How many of the calls for a direction restarted. -/
def countRestarts (events : List (Event α V)) : ℕ :=
  (s.stages st events).countP fun stage => s.restarts stage.1 stage.2.query

/-- How many steps were accepted since the last restart or reset. -/
def stepsSince (events : List (Event α V)) : ℕ :=
  ((s.stages st events).rtakeWhile fun stage => !s.startsOver stage.1 stage.2.query).countP
    fun stage => stage.2.isStep

theorem countRestarts_snoc (events : List (Event α V)) (e : Event α V) :
    s.countRestarts st (events ++ [e]) =
      s.countRestarts st events + if s.restarts (s.replay st events) e.query then 1 else 0 := by
  simp [countRestarts, stages_snoc, List.countP_singleton]

theorem stepsSince_snoc (events : List (Event α V)) (e : Event α V) :
    s.stepsSince st (events ++ [e]) =
      if s.startsOver (s.replay st events) e.query then 0
      else s.stepsSince st events + if e.isStep then 1 else 0 := by
  rw [stepsSince, stages_snoc, List.rtakeWhile_concat]
  cases h : s.startsOver (s.replay st events) e.query <;> simp [stepsSince, List.countP_singleton]

/-- The counter of restarts and resets. -/
theorem restarts_next (q : Query α V) : (s.next st q).restarts =
    st.restarts + (if s.restarts st q then 1 else 0) + (if q.isReset then 1 else 0) := by
  cases q with
  | compute x =>
    rw [next_compute]
    cases s.restarts st (.compute x) <;> rfl
  | reset => simp [next, restarts, Query.isReset]
  | initialStep gradient direction => simp [next, restarts, Query.isReset]
  | search ray asked => simp [next, restarts, Query.isReset]
  | update u y gradient alpha d =>
    cases records st y gradient alpha d with
    | counted last slope run => simp [next, restarts, run, Query.isReset]
    | unchanged fault run => simp [next, restarts, run, Query.isReset]
    | remembered fault last run => simp [next, restarts, run, Query.isReset]

theorem restarts_replay (events : List (Event α V)) : (s.replay st events).restarts =
    st.restarts + s.countRestarts st events + events.countP fun e => e.query.isReset := by
  induction events using List.reverseRecOn with
  | nil => rfl
  | append_singleton events e ih =>
    rw [replay_snoc, restarts_next, ih, countRestarts_snoc, List.countP_append,
      List.countP_singleton]
    omega

end Calls

section Run
variable {r : ℕ} {s : ConjugateGradient} {st : State α V} {p : Phase α V}
  {moved : List (Move α V)} {d : Descent (State α V) ρ α V M} {o : Oracle α V M}
  {f : Flow (State α V) ρ α V} {l : Ledger α V} {e : Event α V}

/-- What is known of the count in a phase of a run. A direction that is searched along is that of
steepest descent, with a new count, or it turns one that is remembered, before the count has reached
the interval. -/
def Settled (r : ℕ) (st : State α V) : Phase α V → Prop
  | .ready _ => st.memory ≠ none → 0 < st.sinceRestart
  | .proposed x direction | .primed x direction _ _ | .searched x direction _ _ =>
    direction = -x.gradient ∧ st.sinceRestart = 0 ∨ 0 < st.sinceRestart ∧ st.sinceRestart < r
  | .aimed _ _ => st.sinceRestart = 0
  | .broken _ _ => True

/-- What holds in a run after some steps. As many of them as are counted are the last ones, and they
begin with one along steepest descent. -/
structure Counts (r : ℕ) (p : Phase α V) (st : State α V) (moved : List (Move α V)) : Prop where
  interval : st.interval = r
  forgot : st.memory = none → st.sinceRestart = 0
  recent : ∃ recent, recent <:+ moved ∧ recent.length = st.sinceRestart ∧
    ∀ m ∈ recent.head?, m.Steepest
  spaced : Spaced r moved
  settled : Settled r st p

/-- How a call changes the strategy. -/
theorem strategy_serve (hd : d.strategy = strategy s) (o : Oracle α V M) (q : Query α V)
    (f : Flow (State α V) ρ α V) (l : Ledger α V) :
    ((d.serve o q).perform f l).2.1.strategy = s.next f.strategy q := by
  cases q with
  | compute x =>
    simp only [Descent.serve, Descent.ask, hd, Act.perform_within, strategy, next]
    cases s.directs f.strategy x.gradient with
    | fresh forgot run => simp only [run]
    | restarted reason remembers run => simp only [run]
    | turned direction remembers early run => simp only [run]
    | failed fault early run => simp only [run]
  | reset =>
    simp only [Descent.serve, Descent.ask, hd, Act.perform_within, strategy, next,
      Act.perform_modifyState]
  | initialStep gradient direction =>
    simp only [Descent.serve, Descent.ask, hd, Act.perform_within, strategy, next,
      Act.perform_bind, Act.perform_state, Act.perform_ofExcept]
    cases firstStep f.strategy gradient direction <;> rfl
  | search ray asked => rfl
  | update u y gradient alpha v =>
    simp only [Descent.serve, Descent.ask, hd, Act.perform_within, strategy, next]
    cases records f.strategy y gradient alpha v with
    | counted last slope run => simp only [run]
    | unchanged fault run => simp only [run]
    | remembered fault last run => simp only [run]

theorem answer_compute (hd : d.strategy = strategy s) (x : Iterate α V) :
    ((d.serve o (.compute x)).perform f l).1 =
      ((s.direction x.gradient).perform f.strategy l).1 := by
  simp only [Descent.serve, Descent.ask, hd, Act.perform_within, strategy]

theorem answer_update (hd : d.strategy = strategy s) (u y gradient : V) (alpha : α) (v : V) :
    ((d.serve o (.update u y gradient alpha v)).perform f l).1 =
      ((record y gradient alpha v).perform f.strategy l).1 := by
  simp only [Descent.serve, Descent.ask, hd, Act.perform_within, strategy]

omit [Scalar α] in
/-- A new count begins with no steps. -/
theorem Counts.anew {p' : Phase α V} {st' : State α V} (h : Counts r p st moved)
    (hinterval : st'.interval = st.interval) (hsince : st'.sinceRestart = 0)
    (hsettled : Settled r st' p') : Counts r p' st' moved :=
  ⟨hinterval.trans h.interval, fun _ => hsince, ⟨[], List.nil_suffix, hsince.symm, nofun⟩, h.spaced,
    hsettled⟩

omit [Scalar α] in
/-- A call that neither restarts nor tells of a step leaves the count as it is. -/
theorem Counts.kept {p' : Phase α V} (h : Counts r p st moved) (hsettled : Settled r st p') :
    Counts r p' st moved :=
  ⟨h.interval, h.forgot, h.recent, h.spaced, hsettled⟩

omit [Scalar α] in
theorem Counts.broken (h : Counts r p st moved) (x : Iterate α V) (fault : Fault α) :
    Counts r (.broken x fault) st moved :=
  h.kept trivial

omit [Scalar α] in
/-- One more step is counted. -/
theorem Counts.step {x : Iterate α V} {direction : V} {again : Bool} {step : Step α V}
    (h : Counts r (.searched x direction again step) st moved) (last : Memory α V) (slope : α) :
    Counts r (.ready step.reached)
      { st with memory := some last, slope, sinceRestart := st.sinceRestart + 1 }
      (moved ++ [⟨x, direction, step.reached⟩]) := by
  obtain ⟨recent, hrecent, hlength, hhead⟩ := h.recent
  let m : Move α V := ⟨x, direction, step.reached⟩
  have hsuffix : recent ++ [m] <:+ moved ++ [m] := List.suffix_append_self_iff.mpr hrecent
  have hsince : (recent ++ [m]).length = st.sinceRestart + 1 := by simp [hlength]
  have hfirst : ∀ m' ∈ (recent ++ [m]).head?, m'.Steepest := by
    cases recent with
    | cons m' recent => exact hhead
    | nil =>
      rintro m' ⟨⟩
      obtain ⟨hsteepest, -⟩ | ⟨hpos, -⟩ := h.settled
      · exact hsteepest
      · exact absurd hlength hpos.ne
  have hsteep : ∃ m' ∈ recent ++ [m], m'.Steepest := by
    obtain ⟨m', hm'⟩ := Option.ne_none_iff_exists'.mp
      (mt List.head?_eq_none_iff.mp (List.append_ne_nil_of_right_ne_nil recent
        (List.cons_ne_nil m [])))
    exact ⟨m', List.mem_of_mem_head? hm', hfirst m' hm'⟩
  have hle : (recent ++ [m]).length ≤ max r 1 := by
    rw [hsince]
    obtain ⟨-, hzero⟩ | ⟨-, hlt⟩ := h.settled
    · omega
    · omega
  exact ⟨h.interval, nofun, ⟨_, hsuffix, hsince, hfirst⟩, h.spaced.snoc hsuffix hle hsteep,
    fun _ => Nat.succ_pos _⟩

/-- What one call of a run makes of the count. -/
theorem Counts.answered (hd : d.strategy = strategy s) (h : Counts r p f.strategy moved)
    (hdue : Phase.Due p e.query) {t : Flow (State α V) ρ α V × Ledger α V}
    (ht : (d.serve o e.query).perform f l = (e.answer, t)) :
    Counts r (p.answered e) t.1.strategy (moved ++ (p.moved? e).toList) := by
  have hstate : t.1.strategy = s.next f.strategy e.query := by
    rw [← strategy_serve hd o e.query f l, ht]
  have hanswer : ((d.serve o e.query).perform f l).1 = e.answer := congrArg Prod.fst ht
  rw [hstate]
  clear ht hstate
  rcases e with ⟨q, answer⟩
  cases hdue with
  | compute x =>
    rw [answer_compute hd] at hanswer
    simp only [Phase.moved?, Option.toList_none, List.append_nil, next]
    cases s.directs f.strategy x.gradient with
    | fresh forgot run =>
      rw [run] at hanswer ⊢
      subst hanswer
      exact h.kept (.inl ⟨rfl, h.forgot forgot⟩)
    | restarted reason remembers run =>
      rw [run] at hanswer ⊢
      subst hanswer
      exact h.anew rfl rfl (.inl ⟨rfl, rfl⟩)
    | turned direction remembers early run =>
      rw [run] at hanswer ⊢
      subst hanswer
      exact h.kept (.inr ⟨h.settled remembers, h.interval ▸ early⟩)
    | failed fault early run =>
      rw [run] at hanswer ⊢
      subst hanswer
      exact h.broken x fault
  | descends hfin hneg =>
    simp only [Phase.moved?, Option.toList_none, List.append_nil, next]
    cases answer with
    | error fault => exact h.broken _ fault
    | ok asked => exact h.kept h.settled
  | replaced hfin hneg =>
    simp only [Phase.moved?, Option.toList_none, List.append_nil, next]
    cases answer with
    | error fault => exact (h.anew rfl rfl trivial)
    | ok _ => exact h.anew rfl rfl rfl
  | steepest x again =>
    simp only [Phase.moved?, Option.toList_none, List.append_nil, next]
    cases answer with
    | error fault => exact h.broken _ fault
    | ok asked => exact h.kept (.inl ⟨rfl, h.settled⟩)
  | search x direction again asked =>
    simp only [Phase.moved?, Option.toList_none, List.append_nil, next]
    cases answer with
    | error fault => exact h.broken _ fault
    | ok step => exact h.kept h.settled
  | repeated hfail hfirst =>
    simp only [Phase.moved?, Option.toList_none, List.append_nil, next]
    cases answer with
    | error fault => exact (h.anew rfl rfl trivial)
    | ok _ => exact h.anew rfl rfl rfl
  | @update x direction again step hok hfin =>
    rw [answer_update hd] at hanswer
    simp only [next]
    cases records f.strategy (step.reached.gradient - x.gradient) step.reached.gradient step.alpha
        direction with
    | counted last slope run =>
      rw [run] at hanswer ⊢
      subst hanswer
      exact h.step last slope
    | unchanged fault run =>
      rw [run] at hanswer ⊢
      subst hanswer
      simp only [Phase.moved?, Option.toList_none, List.append_nil]
      exact h.broken x fault
    | remembered fault last run =>
      rw [run] at hanswer ⊢
      subst hanswer
      have hremembered : Counts r (.broken x fault) { f.strategy with memory := some last } moved :=
        ⟨h.interval, nofun, h.recent, h.spaced, trivial⟩
      simp only [Phase.moved?, Option.toList_none, List.append_nil]
      exact hremembered

/-- The count after a call: a restart or a reset ends it, and a step that is accepted adds to it. -/
theorem sinceRestart_next (hd : d.strategy = strategy s)
    (hanswer : ((d.serve o e.query).perform f l).1 = e.answer) :
    (s.next f.strategy e.query).sinceRestart = if s.startsOver f.strategy e.query then 0
      else f.strategy.sinceRestart + if e.isStep then 1 else 0 := by
  rcases e with ⟨q, answer⟩
  cases q with
  | compute x =>
    have hover : s.startsOver f.strategy (.compute x) = s.restarts f.strategy (.compute x) :=
      Bool.or_false _
    rw [next_compute, hover]
    cases s.restarts f.strategy (.compute x) <;> rfl
  | reset => simp [next, startsOver, State.cleared, Query.isReset]
  | initialStep gradient direction =>
    simp [next, startsOver, restarts, Query.isReset, Event.isStep]
  | search ray asked => simp [next, startsOver, restarts, Query.isReset, Event.isStep]
  | update u y gradient alpha v =>
    rw [answer_update hd] at hanswer
    cases records f.strategy y gradient alpha v with
    | counted last slope run =>
      rw [run] at hanswer
      subst hanswer
      simp [next, startsOver, restarts, run, Query.isReset, Event.isStep]
    | unchanged fault run =>
      rw [run] at hanswer
      subst hanswer
      simp [next, startsOver, restarts, run, Query.isReset, Event.isStep]
    | remembered fault last run =>
      rw [run] at hanswer
      subst hanswer
      simp [next, startsOver, restarts, run, Query.isReset, Event.isStep]

section Along
variable (hd : d.strategy = strategy s) {begun t : Flow (State α V) ρ α V × Ledger α V}
  {events : List (Event α V)} (h : d.Transcript o begun events t)
include hd h

/-- The events of a run, from its start on. -/
theorem Counts.along (hp : Counts r p begun.1.strategy []) (hobeys : p.Obeys events) :
    Counts r (p.along events) t.1.strategy (p.moves events) := by
  induction h with
  | begin => exact hp
  | remark h _ ih => exact ih hobeys
  | accept h y ih => exact ih hobeys
  | @call events f l h e t ht ih =>
    rw [Phase.obeys_append] at hobeys
    rw [Phase.along_append, Phase.moves_snoc]
    exact (ih hobeys.1).answered (f := { f with calls := f.calls.push e.call }) hd
      (Phase.due_of_eq_some hobeys.2.1) ht

/-- The strategy is the one after the calls, and its count that of the steps since the last restart
or reset. -/
theorem strategy_transcript (hzero : begun.1.strategy.sinceRestart = 0) :
    t.1.strategy = s.replay begun.1.strategy events ∧
      t.1.strategy.sinceRestart = s.stepsSince begun.1.strategy events := by
  induction h with
  | begin => exact ⟨rfl, hzero⟩
  | remark h _ ih => exact ih
  | accept h y ih => exact ih
  | @call events f l h e t ht ih =>
    obtain ⟨hreplay, hsince⟩ := ih
    have hstate : t.1.strategy = s.next f.strategy e.query := by
      rw [← strategy_serve hd o e.query { f with calls := f.calls.push e.call } l, ht]
    have hnext := sinceRestart_next (f := { f with calls := f.calls.push e.call }) hd
      (congrArg Prod.fst ht)
    constructor
    · rw [hstate, hreplay, replay_snoc]
    · rw [hstate, hnext, hsince, hreplay, stepsSince_snoc]

end Along

/-- A run begins with nothing to remember and no steps. -/
theorem counts_begun (r restarts : ℕ) (start : Iterate α V) :
    Counts r (.ready start) ⟨restarts, r, none, 0, 0⟩ [] :=
  ⟨rfl, fun _ => rfl, ⟨[], List.nil_suffix, rfl, nofun⟩, spaced_nil, fun h => absurd rfl h⟩

/-- A count that has reached the interval leads to steepest descent. -/
theorem answer_of_full (hfull : st.interval ≤ st.sinceRestart) (g : V) :
    ((s.direction g).perform st l).1 = .ok (-g) := by
  cases s.directs st g with
  | fresh forgot run => rw [run]
  | restarted reason remembers run => rw [run]
  | turned direction remembers early run => exact absurd hfull early.not_ge
  | failed fault early run => exact absurd hfull early.not_ge

/-- A direction that is asked for after as many steps as the interval is steepest descent. -/
theorem answer_of_stepsSince (hd : d.strategy = strategy s)
    {begun t : Flow (State α V) ρ α V × Ledger α V} {before rest : List (Event α V)}
    {y : Iterate α V} {answer : Except (Fault α) V}
    (h : d.Transcript o begun (before ++ ⟨.compute y, answer⟩ :: rest) t)
    (hobeys : p.Obeys (before ++ ⟨.compute y, answer⟩ :: rest))
    (hp : Counts r p begun.1.strategy []) (hzero : begun.1.strategy.sinceRestart = 0)
    (hfull : r ≤ s.stepsSince begun.1.strategy before) : answer = .ok (-y.gradient) := by
  obtain ⟨f, l, u, hbefore, hserve⟩ := h.exists_before rfl
  rw [Phase.obeys_append] at hobeys
  have hinterval : f.strategy.interval = r := (hp.along hd hbefore hobeys.1).interval
  have hsince : f.strategy.sinceRestart = s.stepsSince begun.1.strategy before :=
    (strategy_transcript hd hbefore hzero).2
  have hanswer : ((d.serve o (.compute y)).perform _ l).1 = answer := congrArg Prod.fst hserve
  rw [← hanswer, answer_compute hd]
  apply answer_of_full
  rw [hinterval, hsince]
  exact hfull

/-- Conjugate gradients restart periodically, with any rule, any interval `r`, any problem and any
search. A run that does not come to its iterations leaves the strategy alone. In every other run,
among `r` consecutive steps that are accepted there is one along exactly the opposite of the
gradient, and with an interval of one all of them are; a direction that is asked for after `r` or
more steps since the last restart or reset is the opposite of the gradient; and at every point of
the run the counter of restarts has grown by the number of calls for a direction that restarted and
of resets. -/
theorem run_restarts [Curved α V M] (p : Problem α V M) (s : ConjugateGradient)
    (machine : Search ρ α V M) (config : Config α) (x : V) (state : State α V) (search : ρ) :
    let d : Descent (State α V) ρ α V M := ⟨p, strategy s, machine, config⟩
    let r := s.interval.getD (Space.size x)
    let begun : State α V := ⟨state.restarts, r, none, 0, 0⟩
    let record := d.run x state search
    ((∀ start, d.opened x ≠ .ok (.inl start)) → record.flow = .start state search #[]) ∧
    ∀ start, d.opened x = .ok (.inl start) → ∃ events ledger,
      d.Converses x start state search events record.flow ledger ∧
      record.flow.strategy = s.replay begun events ∧
      (∀ outcome, record.result = .ok outcome →
        record.flow.trace.toList = ((Phase.ready start).moves events).map Move.reached) ∧
      (∀ window, window <:+: (Phase.ready start).moves events → window ≠ [] → r ≤ window.length →
        ∃ m ∈ window, m.direction = -m.start.gradient) ∧
      (r = 1 → ∀ m ∈ (Phase.ready start).moves events, m.direction = -m.start.gradient) ∧
      (∀ before y answer rest, events = before ++ ⟨.compute y, answer⟩ :: rest →
        r ≤ s.stepsSince begun before → answer = .ok (-y.gradient)) ∧
      ∀ before rest, events = before ++ rest →
        ∃ flow l, d.Converses x start state search before flow l ∧
          flow.strategy = s.replay begun before ∧
          flow.strategy.restarts = state.restarts + s.countRestarts begun before +
            before.countP fun e => e.query.isReset := by
  intro d r begun record
  refine ⟨Descent.flow_run_of_not_opened state search, fun start hstart => ?_⟩
  obtain ⟨f, hfault, -⟩ | ⟨events, ledger, hconverses, hend⟩ :=
    Descent.run_converses state search hstart
  · cases hfault
  obtain ⟨hobeys, prepared, hprepared, htranscript⟩ := id hconverses
  have hbegun : prepared = begun := by
    have hprepare : (.ok ⟨state.restarts, s.interval.getD (Space.size start.point), none, 0, 0⟩ :
        Except (Fault α) (State α V)) = .ok prepared := hprepared
    rw [(Descent.opened_finite hstart).1] at hprepare
    exact (Except.ok.inj hprepare).symm
  subst hbegun
  have hcounts : Counts r (.ready start) begun [] := counts_begun r state.restarts start
  have hspaced := (hcounts.along rfl htranscript hobeys).spaced
  refine ⟨events, ledger, hconverses, (strategy_transcript rfl htranscript rfl).1, ?_, hspaced, ?_,
    ?_, ?_⟩
  · intro outcome hout
    obtain ⟨stop, haccepted, -, -⟩ := hend outcome hout
    rw [← haccepted, Phase.accepted_eq_map_moves hobeys]
  · intro hone
    rw [hone] at hspaced
    exact hspaced.of_one
  · rintro before y answer rest rfl hfull
    exact answer_of_stepsSince rfl htranscript hobeys hcounts rfl hfull
  · rintro before rest rfl
    obtain ⟨flow, l, hbefore⟩ := htranscript.exists_of_append
    have hreplay : flow.strategy = s.replay begun before := (strategy_transcript rfl hbefore rfl).1
    rw [Phase.obeys_append] at hobeys
    refine ⟨flow, l, ⟨hobeys.1, begun, hprepared, hbefore⟩, hreplay, ?_⟩
    rw [hreplay, restarts_replay]

/-- Three steps with an interval of two: the second one turns the first direction, and the third one
is a restart. -/
theorem run_restarts_bowl :
    let s : ConjugateGradient := ⟨.fletcherReeves, none⟩
    let d : Descent (State (Exact ℚ) (Vector (Exact ℚ) 2)) ℕ (Exact ℚ) (Vector (Exact ℚ) 2)
        (Matrix (Exact ℚ) 2) :=
      ⟨LineSearch.bowl, strategy s, Script.search [
        ⟨1, ⟨#v[2, 2], 0, #v[1 + 1, -1]⟩, true, ""⟩, ⟨1, ⟨#v[1, 1], 0, #v[1, 1]⟩, true, ""⟩,
        ⟨1, ⟨#v[0, 0], 0, #v[0, 0]⟩, true, ""⟩], .standard⟩
    let start : Iterate (Exact ℚ) (Vector (Exact ℚ) 2) := ⟨#v[1, 0], -2, #v[-1, -2]⟩
    let record := d.run #v[1, 0] s.fresh 0
    record.flow.strategy.restarts = 1 ∧
    (.search #v[-1, 1 + 1 + 1] : Call (Exact ℚ) (Vector (Exact ℚ) 2)) ∈ record.flow.calls.toList ∧
    ∃ events ledger, d.Converses #v[1, 0] start s.fresh 0 events record.flow ledger ∧
      ((Phase.ready start).moves events).length = 3 ∧
      ∀ window, window <:+: (Phase.ready start).moves events → window.length = 2 →
        ∃ m ∈ window, m.direction = -m.start.gradient := by
  intro s d start record
  have hstart : d.opened #v[1, 0] = .ok (.inl start) := by decide +kernel
  obtain ⟨events, ledger, hconverses, -, htrace, hspaced, -⟩ :=
    (run_restarts LineSearch.bowl s d.search d.config #v[1, 0] s.fresh 0).2 start hstart
  have hsize : record.flow.trace.size = 3 := by decide +kernel
  have hended : (record.result.toOption).isSome = true := by decide +kernel
  refine ⟨by decide +kernel, by decide +kernel, events, ledger, hconverses, ?_, ?_⟩
  · cases hresult : record.result with
    | error f =>
      rw [hresult] at hended
      cases hended
    | ok outcome =>
      have hlength := congrArg List.length (htrace outcome hresult)
      rw [List.length_map, Array.length_toList] at hlength
      exact hlength.symm.trans hsize
  · intro window hwindow hlength
    apply hspaced window hwindow
    · rintro rfl
      cases hlength
    · exact hlength.ge

end Run

end ConjugateGradient

end Downhill
