import Downhill.Proofs.ConjugateGradient.Reliable
import Downhill.Proofs.Direction.Motion

/-! Conjugate gradients in other coordinates. What is remembered of the last step turns with the
coordinates, and the rules for the share of the last direction see scalar products only. -/
open Matrix

namespace Downhill.ConjugateGradient
variable {K : Type} [ExactField K] {n : ℕ}

open Exact

/-- What is remembered, in the new coordinates. -/
def State.turned (m : RigidMotion K n) (st : State (Exact K) (Vector (Exact K) n)) :
    State (Exact K) (Vector (Exact K) n) :=
  { st with memory := st.memory.map fun last =>
      ⟨m.turned last.direction, m.turned last.gradient, last.alpha⟩ }

/-- The direction and the gradient that are remembered are vectors of the field. -/
def Numeric (st : State (Exact K) (Vector (Exact K) n)) : Prop :=
  ∀ last, st.memory = some last →
    ∃ d g : Fin n → K, last.direction = lift d ∧ last.gradient = lift g

variable {m : RigidMotion K n} {rule : BetaRule} {st : State (Exact K) (Vector (Exact K) n)}

theorem beta_turn (d g g' : Fin n → K) (alpha : Exact K) :
    beta rule ⟨lift (m.turn d), lift (m.turn g), alpha⟩ (lift (m.turn g')) =
      beta rule ⟨lift d, lift g, alpha⟩ (lift g') := by
  cases rule <;> simp [beta, ← m.turn_sub, bind, Except.bind]

/-- A share that is found is a number. -/
theorem exists_number_of_beta {last : Memory (Exact K) (Vector (Exact K) n)} {b : Exact K}
    {d g g' : Fin n → K} (hdirection : last.direction = lift d) (hgradient : last.gradient = lift g)
    (h : beta rule last (lift g') = .ok b) : ∃ b', b = number b' := by
  have hknown : ∀ {b'}, beta rule last (lift g') = .ok (number b') → ∃ b', b = number b' :=
    fun hb => ⟨_, Except.ok.inj (h.symm.trans hb)⟩
  by_cases hg : g = 0
  · cases rule with
    | hestenesStiefel =>
      exact hknown (exists_beta_hestenesStiefel hgradient hdirection g').choose_spec
    | _ => simp [beta, hgradient, hg, quotient_zero, bind, Except.bind] at h
  · exact hknown (exists_beta rule hg hgradient hdirection g').choose_spec

theorem firstStep_turned (st : State (Exact K) (Vector (Exact K) n)) (w d : Fin n → K) :
    firstStep (st.turned m) (lift (m.turn w)) (lift (m.turn d)) =
      firstStep st (lift w) (lift d) := by
  cases hmemory : st.memory with
  | none => simp [firstStep, State.turned, hmemory, cautiousStep_turn]
  | some last => simp [firstStep, State.turned, hmemory]

/-- The states of two strategies that follow a run and its image. -/
def Turned (m : RigidMotion K n) (st st' : State (Exact K) (Vector (Exact K) n)) : Prop :=
  st' = st.turned m ∧ Numeric st

def SameRestarts (st st' : State (Exact K) (Vector (Exact K) n)) : Prop :=
  st'.restarts = st.restarts

theorem Turned.sameRestarts (st st' : State (Exact K) (Vector (Exact K) n)) (h : Turned m st st') :
    SameRestarts st st' := by
  rw [h.1]
  rfl

theorem matches_restart (g : Fin n → K) (reason : Restart) :
    Act.Matches (Turned m) SameRestarts m.Directions
      (restart (lift g) reason : Act _ (Exact K) _ _) (restart (lift (m.turn g)) reason) := by
  refine .bind (.modifyState ?_) fun _ _ _ => .bind (.remark _ _) fun _ _ _ =>
    .pure (m.directions_neg g)
  rintro st _ ⟨rfl, hst⟩
  exact ⟨rfl, hst⟩

theorem matches_direction (s : ConjugateGradient) (g : Fin n → K) :
    Act.Matches (Turned m) SameRestarts m.Directions
      (s.direction (lift g) : Act _ (Exact K) _ _) (s.direction (lift (m.turn g))) := by
  refine .state ?_
  rintro ⟨restarts, interval, memory, slope, since⟩ _ ⟨rfl, hst⟩
  cases memory with
  | none => exact .pure (m.directions_neg g)
  | some last =>
    obtain ⟨d, w, alpha⟩ := last
    obtain ⟨d, w, rfl, rfl⟩ : ∃ d' w' : Fin n → K, d = lift d' ∧ w = lift w' := hst _ rfl
    simp only [State.turned, Option.map_some, RigidMotion.turned_lift]
    refine .ite Iff.rfl (fun _ => matches_restart g _) fun _ => ?_
    refine .of_eq Turned.sameRestarts (beta_turn d w g alpha) fun b hb => ?_
    obtain ⟨b, rfl⟩ := exists_number_of_beta rfl rfl hb
    refine .ite Iff.rfl (fun _ => ?_) fun _ => matches_restart g _
    have hsum : Space.sum? (-lift g) (number b * lift d) = .ok (lift (-g + b • d)) := by
      rw [Space.sum?_vector, neg_lift, number_mul_lift, lift_add]
    have hsum' : Space.sum? (-lift (m.turn g)) (number b * lift (m.turn d)) =
        .ok (lift (m.turn (-g + b • d))) := by
      rw [Space.sum?_vector, neg_lift, number_mul_lift, lift_add, m.turn_add, m.turn_neg,
        m.turn_smul]
    refine .of_ok hsum hsum' (.of_eq Turned.sameRestarts ?_ fun _ _ => ?_)
    · simp
    · exact .ite Iff.rfl (fun _ => .pure (.inl ⟨_, rfl, rfl⟩)) fun _ => matches_restart g _

theorem matches_record (y w d : Fin n → K) (alpha : Exact K) :
    Act.Matches (Turned m) SameRestarts (fun _ _ => True)
      (record (lift y) (lift w) alpha (lift d) : Act _ (Exact K) _ _)
      (record (lift (m.turn y)) (lift (m.turn w)) alpha (lift (m.turn d))) := by
  refine .of_ok (Space.difference?_vector _ _) (Space.difference?_vector _ _) ?_
  rw [lift_sub, lift_sub, ← m.turn_sub]
  refine .bind (.modifyState ?_) fun _ _ _ =>
    .of_eq Turned.sameRestarts ?_ fun _ _ => .modifyState ?_
  · rintro st _ ⟨rfl, -⟩
    refine ⟨by simp [State.turned], ?_⟩
    rintro _ ⟨⟩
    exact ⟨d, w - y, rfl, rfl⟩
  · simp
  · rintro st _ ⟨rfl, hst⟩
    exact ⟨rfl, hst⟩

/-- Conjugate gradients follow a run and its image, and restart equally often. -/
theorem follows (s : ConjugateGradient) (f : (Fin n → K) → K) (g : (Fin n → K) → Fin n → K)
    (o o' : Oracle (Exact K) (Vector (Exact K) n) (Matrix (Exact K) n)) :
    Strategy.Follows s.strategy m f g o o' (Turned m) SameRestarts where
  left := Turned.sameRestarts
  prepare x st := .inr ⟨_, _, rfl, rfl, rfl, fun _ h => by cases h⟩
  compute x := by
    have h := matches_direction (m := m) s (g x)
    rwa [← m.turned_lift] at h
  initialStep w d := by
    refine .state ?_
    rintro st _ ⟨rfl, -⟩
    exact .of_eq Turned.sameRestarts (firstStep_turned st w d) fun _ _ => .pure rfl
  update s y w alpha d := matches_record y w d alpha
  reset := by
    have hreset : ∀ st st', Turned m st st' → Turned m
        { st.cleared with restarts := st.restarts + 1 }
        { st'.cleared with restarts := st'.restarts + 1 } := by
      rintro st _ ⟨rfl, -⟩
      exact ⟨rfl, fun _ h => by cases h⟩
    exact .modifyState hreset

end Downhill.ConjugateGradient
