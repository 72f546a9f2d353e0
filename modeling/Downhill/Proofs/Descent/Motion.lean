import Downhill.Proofs.Descent.Lockstep
import Downhill.Proofs.Direction.Motion
import Downhill.Proofs.LineSearch.MoreThuente.Motion

/-! Runs in other coordinates. A run and the run of its image keep in step: they ask the same
questions of their strategies and searches at points that are images of each other, decide in the
same way, and end for the same reason. -/
open Matrix

namespace Downhill
variable {σ K β β' : Type} [ExactField K] {n : ℕ}

open Exact

section Answers
variable {α V σ' γ γ' ε : Type}

/-- Two computations whose answers may also be faults. Related answers come with states that are
related by `S`, and the same fault, as an answer or not, with states that are related by `C`. -/
def Act.Settles (S C : σ → σ' → Prop) (B : β → β' → Prop) (c : Act σ α V (Except ε β))
    (c' : Act σ' α V (Except ε β')) : Prop :=
  Alike (Joint S) c c'
    (fun r t r' t' => Both (fun b t b' t' => B b b' ∧ Joint S t t') (Joint C) (r, t) (r', t'))
    (Joint C)

variable {S C : σ → σ' → Prop} {B : β → β' → Prop}

theorem Act.settles_guarded {c : Act σ α V β} {c' : Act σ' α V β'} (h : Act.Matches S C B c c') :
    Act.Settles S C B (guarded c) (guarded c') := by
  intro t t' ht
  have hends := h t t' ht
  change Both _ _ ((guarded c).perform t.1 t.2) ((guarded c').perform t'.1 t'.2)
  change Both _ _ (c.perform t.1 t.2) (c'.perform t'.1 t'.2) at hends
  rw [perform_guarded, perform_guarded]
  generalize c.perform t.1 t.2 = x, c'.perform t'.1 t'.2 = x' at hends ⊢
  rcases x with ⟨e | b, t⟩ <;> rcases x' with ⟨e' | b', t'⟩
  · obtain ⟨rfl, ht⟩ := hends
    cases e' with
    | numerical f => exact ⟨rfl, ht⟩
    | _ => exact ⟨rfl, ht⟩
  · exact hends.elim
  · exact hends.elim
  · exact hends

theorem Act.Settles.before {c : Act σ α V (Except ε β)} {c' : Act σ' α V (Except ε β')}
    {k : Except ε β → Act σ α V γ} {k' : Except ε β' → Act σ' α V γ'}
    {A : γ → σ × Ledger α V → γ' → σ' × Ledger α V → Prop} (h : Act.Settles S C B c c')
    (hok : ∀ b b', B b b' → Alike (Joint S) (k (.ok b)) (k' (.ok b')) A (Joint C))
    (herror : ∀ e, Alike (Joint C) (k (.error e)) (k' (.error e)) A (Joint C)) :
    Alike (Joint S) (c >>= k) (c' >>= k') A (Joint C) := by
  refine Alike.bind h fun r r' => ?_
  rcases r with e | b <;> rcases r' with e' | b'
  · refine .of_known (fun _ _ h => h) ?_
    rintro rfl
    exact herror e'
  · exact fun _ _ h => h.elim
  · exact fun _ _ h => h.elim
  · exact .of_known (fun _ _ h => h) (hok b b')

end Answers

namespace RigidMotion

section Images
variable (m : RigidMotion K n) (f : (Fin n → K) → K) (g : (Fin n → K) → Fin n → K)

def step (s : Step (Exact K) (Vector (Exact K) n)) : Step (Exact K) (Vector (Exact K) n) :=
  { s with reached := m.iterate s.reached }

/-- The second step is the image of the first, which reached an iterate of the field. -/
def Steps (s s' : Step (Exact K) (Vector (Exact K) n)) : Prop :=
  s' = m.step s ∧ ∃ z, s.reached = iterateAt f g z

/-- The end of the run in the new coordinates. -/
def stop (s : Stop (Exact K) (Vector (Exact K) n)) : Stop (Exact K) (Vector (Exact K) n) :=
  { s with final := m.iterate s.final }

/-- The outcome of the run in the new coordinates. -/
def outcome (r : Outcome (Exact K) (Vector (Exact K) n)) : Outcome (Exact K) (Vector (Exact K) n) :=
  { r with
    point := m.image r.point
    value := r.value + number m.offset
    history := r.history.map m.image }

/-- The second run stops as the first one does, at the image of an iterate of the field. -/
def Stops (s s' : Stop (Exact K) (Vector (Exact K) n)) : Prop :=
  s' = m.stop s ∧ ∃ z, s.final = iterateAt f g z

/-- The two runs are as far. -/
def Progresses (t t' : Progress (Exact K) (Vector (Exact K) n)) : Prop :=
  ∃ z k, t = ⟨iterateAt f g z, k⟩ ∧ t' = ⟨m.iterate (iterateAt f g z), k⟩

/-- The states of the strategies are related by `S`, and the second run took the images of the steps
of the first one. -/
def Flows (S : σ → σ → Prop) (t t' : Flow σ Unit (Exact K) (Vector (Exact K) n)) : Prop :=
  S t.strategy t'.strategy ∧ t'.trace = t.trace.map m.iterate

/-- The second record is that of the image of the first run, with strategies related by `C`. -/
def Records (C : σ → σ → Prop) (r r' : Record σ Unit (Exact K) (Vector (Exact K) n)) : Prop :=
  r'.result = r.result.map m.outcome ∧ m.Flows C r.flow r'.flow ∧ SameCount r.ledger r'.ledger

/-- After a round: the two runs go on, in states related by `S`, or both stop. -/
abbrev Rounds (S C : σ → σ → Prop)
    (r : Progress (Exact K) (Vector (Exact K) n) ⊕ Stop (Exact K) (Vector (Exact K) n))
    (t : Flow σ Unit (Exact K) (Vector (Exact K) n) × Ledger (Exact K) (Vector (Exact K) n))
    (r' : Progress (Exact K) (Vector (Exact K) n) ⊕ Stop (Exact K) (Vector (Exact K) n))
    (t' : Flow σ Unit (Exact K) (Vector (Exact K) n) × Ledger (Exact K) (Vector (Exact K) n)) :
    Prop :=
  Sum.LiftRel (fun s s' => m.Progresses f g s s' ∧ Joint (m.Flows S) t t')
    (fun s s' => m.Stops f g s s' ∧ Joint (m.Flows C) t t') r r'

end Images

section Parts
variable {m : RigidMotion K n} {S C : σ → σ → Prop} {B : β → β' → Prop}

theorem matches_note (c c' : Call (Exact K) (Vector (Exact K) n)) :
    Act.Matches (m.Flows S) (m.Flows C) (fun _ _ => True)
      (Descent.note c : Act (Flow σ Unit _ _) _ _ _) (Descent.note c') :=
  .modifyState fun _ _ h => h

theorem matches_ask {c : Act σ (Exact K) (Vector (Exact K) n) β}
    {c' : Act σ (Exact K) (Vector (Exact K) n) β'} (h : Act.Matches S C B c c') :
    Act.Matches (m.Flows S) (m.Flows C) B
      (Descent.ask c : Act (Flow σ Unit _ _) _ _ _) (Descent.ask c') := by
  rintro ⟨flow, l⟩ ⟨flow', l'⟩ ⟨⟨hS, htrace⟩, hl⟩
  have hends := h (flow.strategy, l) (flow'.strategy, l') ⟨hS, hl⟩
  change Both _ _ ((Descent.ask c).perform flow l) ((Descent.ask c').perform flow' l')
  change Both _ _ (c.perform flow.strategy l) (c'.perform flow'.strategy l') at hends
  rw [Descent.ask, Descent.ask, Act.perform_within, Act.perform_within]
  generalize c.perform flow.strategy l = x, c'.perform flow'.strategy l' = x' at hends ⊢
  rcases x with ⟨e | b, st, l⟩ <;> rcases x' with ⟨e' | b', st', l'⟩
  · exact ⟨hends.1, ⟨hends.2.1, htrace⟩, hends.2.2⟩
  · exact hends.elim
  · exact hends.elim
  · exact ⟨hends.1, ⟨hends.2.1, htrace⟩, hends.2.2⟩

theorem matches_look (hC : ∀ st st', S st st' → C st st')
    {c : Eval (Exact K) (Vector (Exact K) n) β} {c' : Eval (Exact K) (Vector (Exact K) n) β'}
    (h : Eval.Matches B c c') :
    Act.Matches (m.Flows S) (m.Flows C) B
      (Descent.look (Act.ofEval c) : Act (Flow σ Unit _ _) _ _ _)
      (Descent.look (Act.ofEval c')) :=
  Act.Matches.ofEval (fun _ _ h => ⟨hC _ _ h.1, h.2⟩) h

end Parts

end RigidMotion

namespace Descent

/-- Everything that a run of `d` and a run for the problem `p` ask goes together: what they hear of
their problems, their strategy, and the search, which is one of the library. Both have the ordinary
end test. -/
structure Accompanies (d : Descent σ Unit (Exact K) (Vector (Exact K) n) (Matrix (Exact K) n))
    (p : Problem (Exact K) (Vector (Exact K) n) (Matrix (Exact K) n)) (m : RigidMotion K n)
    (f : (Fin n → K) → K) (g : (Fin n → K) → Fin n → K)
    (o o' : Oracle (Exact K) (Vector (Exact K) n) (Matrix (Exact K) n)) (S C : σ → σ → Prop) :
    Prop where
  moves : m.Moves f g o o'
  strategy : d.strategy.Follows m f g o o' S C
  search : ∃ s : LineSearch (Exact K), d.search = s.machine ∧ s.check = .ok ()
  test : d.problem.converged = gradientTest
  test' : p.converged = gradientTest

namespace Accompanies
variable {d : Descent σ Unit (Exact K) (Vector (Exact K) n) (Matrix (Exact K) n)}
  {p : Problem (Exact K) (Vector (Exact K) n) (Matrix (Exact K) n)} {m : RigidMotion K n}
  {f : (Fin n → K) → K} {g : (Fin n → K) → Fin n → K}
  {o o' : Oracle (Exact K) (Vector (Exact K) n) (Matrix (Exact K) n)} {S C : σ → σ → Prop}
  (h : d.Accompanies p m f g o o' S C)
include h

theorem left (t t' : Flow σ Unit (Exact K) (Vector (Exact K) n)) (ht : m.Flows S t t') :
    m.Flows C t t' :=
  ⟨h.strategy.left _ _ ht.1, ht.2⟩

theorem matches_reset :
    Act.Matches (m.Flows S) (m.Flows C) (fun _ _ => True) d.reset (d.on p).reset :=
  .bind (RigidMotion.matches_note _ _) fun _ _ _ => RigidMotion.matches_ask h.strategy.reset

/-- The directions of an iteration. -/
theorem settles_propose (x : Fin n → K) (k : ℕ) :
    Act.Settles (m.Flows S) (m.Flows C) (fun v v' => ∃ e, v = lift e ∧ v' = lift (m.turn e))
      (d.propose o ⟨iterateAt f g x, k⟩)
      ((d.on p).propose o' ⟨m.iterate (iterateAt f g x), k⟩) := by
  refine (RigidMotion.matches_note _ _).before fun _ _ _ => ?_
  refine (Act.settles_guarded (RigidMotion.matches_ask (h.strategy.compute x))).before ?_
    fun e => .pure fun _ _ ht => ⟨rfl, ht⟩
  rintro v v' (⟨e, rfl, rfl⟩ | ⟨hno, hno'⟩)
  · refine .ite (iff_of_true (allFinite_lift _) (allFinite_lift _)) (fun _ => ?_)
      fun hno => absurd (allFinite_lift e) hno
    have hslope : Space.dot? (iterateAt f g x).gradient (lift e) = .ok (number (g x ⬝ᵥ e)) := by
      rw [iterateAt, Space.dot?_vector, dot_lift]
    have hslope' : Space.dot? (m.iterate (iterateAt f g x)).gradient (lift (m.turn e)) =
        .ok (number (g x ⬝ᵥ e)) := by
      rw [m.iterate_eq, Space.dot?_vector, dot_lift, m.turn_dotProduct]
    refine Act.alike_of_ok hslope hslope' ?_
    refine .ite Iff.rfl (fun _ => .pure fun _ _ ht => ⟨⟨e, rfl, rfl⟩, ht⟩) fun _ => ?_
    refine (Act.Matches.remark _ _).before fun _ _ _ => h.matches_reset.before fun _ _ _ => ?_
    refine .pure fun _ _ ht => ⟨⟨-g x, neg_lift (g x), ?_⟩, ht⟩
    rw [m.iterate_eq, neg_lift, m.turn_neg]
  · have hnot : ¬ Space.finite v = true := ne_true_of_eq_false (b := allFinite v) hno
    have hnot' : ¬ Space.finite v' = true := ne_true_of_eq_false (b := allFinite v') hno'
    refine .ite (iff_of_false hnot' hnot) (fun hyes => absurd hyes hnot) fun _ => ?_
    exact .pure fun t t' ht => ⟨rfl, h.left _ _ ht.1, ht.2⟩

/-- The searches along a direction. -/
theorem matches_searchAlong (x e : Fin n → K) :
    Act.Matches (m.Flows S) (m.Flows C) (m.Steps f g)
      (d.searchAlong o (iterateAt f g x) (lift e))
      ((d.on p).searchAlong o' (m.iterate (iterateAt f g x)) (lift (m.turn e))) := by
  obtain ⟨s, hs, hcheck⟩ := h.search
  refine .bind (RigidMotion.matches_note _ _) fun _ _ _ => ?_
  refine .bind (D := fun a a' => a' = a) ?_ ?_
  · have hasked := RigidMotion.matches_ask (m := m) (h.strategy.initialStep (g x) e)
    rwa [← m.turned_lift (g x)] at hasked
  · rintro _ asked rfl
    refine .bind (RigidMotion.matches_note _ _) fun _ _ _ => ?_
    have hsearch : Eval.Matches (m.Steps f g) (s.search o (rayAt f g x e) asked) _ :=
      LineSearch.matches_search (RigidMotion.moves_iff.mp h.moves) hcheck x e asked
    rw [AffineChange.ray, rayAt, AffineChange.pushed_lift] at hsearch
    rw [show (d.on p).search = d.search from rfl, hs]
    exact RigidMotion.matches_look h.strategy.left hsearch

theorem matches_explore (x e : Fin n → K) (k : ℕ) :
    Act.Matches (m.Flows S) (m.Flows C)
      (fun r r' => (∃ e, r.1 = lift e ∧ r'.1 = lift (m.turn e)) ∧ m.Steps f g r.2 r'.2)
      (d.explore o ⟨iterateAt f g x, k⟩ (lift e))
      ((d.on p).explore o' ⟨m.iterate (iterateAt f g x), k⟩ (lift (m.turn e))) := by
  have hback : -(m.iterate (iterateAt f g x)).gradient = lift (m.turn (-g x)) := by
    rw [m.iterate_eq, neg_lift, m.turn_neg]
  have hback' : -(iterateAt f g x).gradient = lift (-g x) := neg_lift (g x)
  simp only [explore, hback, hback']
  refine .bind (h.matches_searchAlong x e) ?_
  rintro step _ ⟨rfl, hreached⟩
  refine .ite ?_ (fun _ => .pure ⟨⟨e, rfl, rfl⟩, rfl, hreached⟩) fun _ => ?_
  · rw [Bool.or_eq_true, Bool.or_eq_true, beq_lift, beq_lift, m.turn_injective.eq_iff]
    rfl
  · refine .bind (.remark _ _) fun _ _ _ => .bind h.matches_reset fun _ _ _ => ?_
    refine .bind (h.matches_searchAlong x (-g x)) fun _ _ hsteps => ?_
    exact .pure ⟨⟨-g x, rfl, rfl⟩, hsteps⟩

/-- The end tests see the length of the gradient only. -/
theorem matches_converged (y y' : Iterate (Exact K) (Vector (Exact K) n)) (z : Fin n → K) :
    Act.Matches (m.Flows S) (m.Flows C) (fun done done' => done' = done)
      (d.converged y (iterateAt f g z)) ((d.on p).converged y' (m.iterate (iterateAt f g z))) := by
  have hnorm : norm (lift (m.turn (g z))) = norm (lift (g z)) := by simp
  rw [m.iterate_eq, converged, converged, h.test,
    show (d.on p).problem.converged = gradientTest from h.test']
  exact .pure (congrArg (withinTolerance · d.config.tolerance) hnorm)

/-- A step is taken in both runs. -/
theorem alike_take (x e : Fin n → K) (k : ℕ) {step step' : Step (Exact K) (Vector (Exact K) n)}
    (hsteps : m.Steps f g step step') :
    Alike (Joint (m.Flows S)) (d.take ⟨iterateAt f g x, k⟩ (lift e) step)
      ((d.on p).take ⟨m.iterate (iterateAt f g x), k⟩ (lift (m.turn e)) step')
      (m.Rounds f g S C) (Joint (m.Flows C)) := by
  obtain ⟨alpha, _, values, gradients, success, message⟩ := step
  obtain ⟨rfl, z, rfl⟩ := hsteps
  have hfinite : finiteStep ⟨alpha, iterateAt f g z, values, gradients, success, message⟩ =
    true := by simp [finiteStep, iterateAt]
  have hfinite' : finiteStep (m.step
      ⟨alpha, iterateAt f g z, values, gradients, success, message⟩) = true := by
    simp [finiteStep, RigidMotion.step, m.iterate_eq]
  refine .ite (iff_of_true hfinite' hfinite) (fun _ => ?_) fun hno => absurd hfinite hno
  have hpoints : Space.difference? (iterateAt f g z).point (iterateAt f g x).point =
      .ok (lift (z - x)) := by
    rw [iterateAt, iterateAt, Space.difference?_vector, lift_sub]
  have hpoints' : Space.difference? (m.iterate (iterateAt f g z)).point
      (m.iterate (iterateAt f g x)).point = .ok (lift (m.turn (z - x))) := by
    rw [m.iterate_eq, m.iterate_eq, Space.difference?_vector, lift_sub, m.point_sub_point]
  have hgradients : Space.difference? (iterateAt f g z).gradient (iterateAt f g x).gradient =
      .ok (lift (g z - g x)) := by
    rw [iterateAt, iterateAt, Space.difference?_vector, lift_sub]
  have hgradients' : Space.difference? (m.iterate (iterateAt f g z)).gradient
      (m.iterate (iterateAt f g x)).gradient = .ok (lift (m.turn (g z - g x))) := by
    rw [m.iterate_eq, m.iterate_eq, Space.difference?_vector, lift_sub, m.turn_sub]
  refine Act.alike_of_ok hpoints hpoints' (Act.alike_of_ok hgradients hgradients' ?_)
  refine (RigidMotion.matches_note _ _).before fun _ _ _ => ?_
  have hupdate := h.strategy.update (z - x) (g z - g x) (g z) alpha e
  rw [← m.turned_lift (g z)] at hupdate
  refine (RigidMotion.matches_ask hupdate).before fun _ _ _ => ?_
  refine (Act.Matches.remark _ _).before fun _ _ _ => ?_
  refine Act.Matches.before (D := fun _ _ => True) (.modifyState ?_) fun _ _ _ => ?_
  · rintro flow flow' ⟨hS, htrace⟩
    refine ⟨hS, ?_⟩
    change flow'.trace.push _ = (flow.trace.push _).map _
    rw [htrace, Array.map_push]
    rfl
  · refine (h.matches_converged _ _ z).before ?_
    rintro _ done rfl
    refine .ite Iff.rfl (fun _ => .pure fun t t' ht => .inr ⟨⟨rfl, z, rfl⟩, ?_⟩) fun _ => ?_
    · exact ⟨h.left _ _ ht.1, ht.2⟩
    · exact .pure fun t t' ht => .inl ⟨⟨z, k + 1, rfl, rfl⟩, ht⟩

/-- An iteration of both runs. -/
theorem alike_iterate (s s' : Progress (Exact K) (Vector (Exact K) n)) :
    Alike (fun t t' => m.Progresses f g s s' ∧ Joint (m.Flows S) t t') (d.iterate o s)
      ((d.on p).iterate o' s') (m.Rounds f g S C) (Joint (m.Flows C)) := by
  refine .of_known (fun _ _ h => h) ?_
  rintro ⟨x, k, rfl, rfl⟩
  refine (h.settles_propose x k).before ?_ fun e => ?_
  · rintro _ _ ⟨e, rfl, rfl⟩
    refine (Act.settles_guarded (h.matches_explore x e k)).before ?_ fun e => ?_
    · rintro ⟨_, step⟩ ⟨_, step'⟩ ⟨⟨e, rfl, rfl⟩, hsteps⟩
      have hstep : step' = m.step step := hsteps.1
      refine .ite (by rw [hstep]; rfl) (fun _ => h.alike_take x e k hsteps) fun _ => ?_
      refine .pure fun t t' ht => .inr ⟨⟨?_, x, rfl⟩, h.left _ _ ht.1, ht.2⟩
      rw [hstep]
      rfl
    · exact .pure fun t t' ht => .inr ⟨⟨rfl, x, rfl⟩, ht⟩
  · exact .pure fun t t' ht => .inr ⟨⟨rfl, x, rfl⟩, ht⟩

/-- The iterations from a start and from its image. -/
theorem alike_pursue (x : Fin n → K) :
    Alike (Joint (m.Flows S)) (d.pursue o (iterateAt f g x))
      ((d.on p).pursue o' (m.iterate (iterateAt f g x)))
      (fun stop t stop' t' => m.Stops f g stop stop' ∧ Joint (m.Flows C) t t')
      (Joint (m.Flows C)) := by
  refine (h.matches_converged _ _ x).before ?_
  rintro _ done rfl
  refine .ite Iff.rfl (fun _ => .pure fun t t' ht => ⟨⟨rfl, x, rfl⟩, h.left _ _ ht.1, ht.2⟩)
    fun _ => ?_
  have hloop := Alike.upTo h.alike_iterate d.config.maxIters ⟨iterateAt f g x, 0⟩
    ⟨m.iterate (iterateAt f g x), 0⟩
  refine Alike.bind (hloop.mono (fun t t' ht => ⟨⟨x, 0, rfl, rfl⟩, ht⟩) (fun _ _ _ _ h => h)
    fun _ _ h => h) fun r r' => ?_
  rcases r with s | stop <;> rcases r' with s' | stop'
  · refine .pure ?_
    rintro t t' ⟨⟨z, k, rfl, rfl⟩, ht⟩
    exact ⟨⟨rfl, z, rfl⟩, h.left _ _ ht.1, ht.2⟩
  · exact fun t t' ht => absurd ht Sum.not_liftRel_inl_inr
  · exact fun t t' ht => absurd ht Sum.not_liftRel_inr_inl
  · refine .pure fun t t' ht => ?_
    obtain ⟨⟩ | ⟨hstop⟩ := ht
    exact hstop

end Accompanies

section Run
variable {d : Descent σ Unit (Exact K) (Vector (Exact K) n) (Matrix (Exact K) n)}
  {p : Problem (Exact K) (Vector (Exact K) n) (Matrix (Exact K) n)} {m : RigidMotion K n}
  {f : (Fin n → K) → K} {g : (Fin n → K) → Fin n → K} {S C : σ → σ → Prop}

/-- Both runs open at their starts. -/
theorem matches_openAt {o o' : Oracle (Exact K) (Vector (Exact K) n) (Matrix (Exact K) n)}
    (h : m.Moves f g o o') (x : Fin n → K) :
    Eval.Matches
      (fun r r' => r = .inl (iterateAt f g x) ∧ r' = .inl (m.iterate (iterateAt f g x)))
      (openAt o (lift x)) (openAt o' (lift (m.point x))) := by
  refine .ite (iff_of_true (allFinite_lift _) (allFinite_lift _)) (fun _ => ?_)
    fun hno => absurd (allFinite_lift x) hno
  refine (h.value x).next ((h.gradient x).next ?_)
  refine .ite (iff_of_true ?_ ?_) (fun _ => .pure ⟨rfl, ?_⟩) fun hno => absurd ?_ hno
  · simp
  · simp
  · rw [m.iterate_eq]
  · simp

theorem close_on_fault (x : Fin n → K) (e : Fault (Exact K))
    {flow flow' : Flow σ Unit (Exact K) (Vector (Exact K) n)}
    {l l' : Ledger (Exact K) (Vector (Exact K) n)} (hflow : m.Flows C flow flow')
    (hl : SameCount l l') :
    m.Records C (d.close (lift x) (.error e) flow l)
      ((d.on p).close (lift (m.point x)) (.error e) flow' l') :=
  ⟨rfl, hflow, hl⟩

/-- Both runs are closed in the same way. -/
theorem close_on (x : Fin n → K) {r r' : Except (Fault (Exact K)) (Stop (Exact K) _)}
    {t t' : Flow σ Unit (Exact K) (Vector (Exact K) n) × Ledger (Exact K) (Vector (Exact K) n)}
    (h : Both (fun stop t stop' t' => m.Stops f g stop stop' ∧ Joint (m.Flows C) t t')
      (Joint (m.Flows C)) (r, t) (r', t')) :
    m.Records C (d.close (lift x) r t.1 t.2)
      ((d.on p).close (lift (m.point x)) r' t'.1 t'.2) := by
  obtain ⟨flow, l⟩ := t
  obtain ⟨flow', l'⟩ := t'
  rcases r with e | stop <;> rcases r' with e' | stop'
  · obtain ⟨rfl, hflow, hl⟩ := h
    exact close_on_fault x e' hflow hl
  · exact h.elim
  · exact h.elim
  · obtain ⟨⟨rfl, z, hz⟩, hflow, hl⟩ := h
    refine ⟨congrArg Except.ok ?_, hflow, hl⟩
    have hnorm : norm (lift (m.turn (g z))) = norm (lift (g z)) := by simp
    have hgradient : Space.norm (m.iterate stop.final).gradient =
        Space.norm stop.final.gradient := by
      rw [hz, m.iterate_eq]
      exact hnorm
    have hhistory : (lift (m.point x) :: flow'.trace.toList.map Iterate.point) =
        (lift x :: flow.trace.toList.map Iterate.point).map m.image := by
      rw [hflow.2]
      simp [RigidMotion.iterate, Function.comp_def]
    have hevaluations : l'.evaluations = l.evaluations := hl
    simp only [outcome, RigidMotion.outcome, RigidMotion.stop, hgradient, hhistory, hevaluations,
      show (d.on p).config = d.config from rfl]
    cases d.config.history <;> rfl

/-- The run of the image of a start. -/
theorem run_on (h : d.Accompanies p m f g (d.work n) ((d.on p).work n) S C) (x : Fin n → K)
    (state : σ) (hstate : C state state) :
    m.Records C (d.run (lift x) state ()) ((d.on p).run (lift (m.point x)) state ()) := by
  have hstarted : ∀ (R : σ → σ → Prop) st st', R st st' → ∀ calls : Array (Call (Exact K) _),
      m.Flows R (.start st () calls) (.start st' () calls) :=
    fun R st st' hst calls => ⟨hst, by simp [Flow.start]⟩
  have hopen := matches_openAt h.moves x {} {} rfl
  rcases hr : (openAt (d.work (Space.size (lift x))) (lift x)).start with ⟨e | r, l⟩ <;>
    rcases hr' : (openAt ((d.on p).work (Space.size (lift (m.point x)))) (lift (m.point x))).start
      with ⟨e' | r', l'⟩ <;>
    rw [show (openAt (d.work n) (lift x)).run.run {} = _ from hr,
      show (openAt ((d.on p).work n) (lift (m.point x))).run.run {} = _ from hr'] at hopen <;>
    simp only [run, hr, hr']
  · obtain ⟨rfl, hl⟩ := hopen
    exact close_on_fault x _ (hstarted C _ _ hstate _) hl
  · exact hopen.elim
  · exact hopen.elim
  · obtain ⟨⟨rfl, rfl⟩, hl⟩ := hopen
    obtain ⟨e, he, he'⟩ | ⟨prepared, prepared', hready, hready', hS⟩ := h.strategy.prepare x state
    · simp only [show d.strategy.prepare (d.work (Space.size (lift x))) _ state = _ from he,
        show (d.on p).strategy.prepare ((d.on p).work (Space.size (lift (m.point x)))) _ state = _
          from he']
      exact close_on_fault x _ (hstarted C _ _ hstate _) hl
    · simp only [show d.strategy.prepare (d.work (Space.size (lift x))) _ state = _ from hready,
        show (d.on p).strategy.prepare ((d.on p).work (Space.size (lift (m.point x)))) _ state = _
          from hready']
      exact close_on x (h.alike_pursue x (_, l) (_, l') ⟨hstarted S _ _ hS _, hl⟩)

end Run

end Descent

end Downhill
