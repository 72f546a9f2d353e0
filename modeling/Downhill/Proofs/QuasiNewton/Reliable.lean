import Downhill.Proofs.Direction.Reliable
import Downhill.Proofs.QuasiNewton.Definite

/-! Limited-memory directions never divide by zero at a gradient that is not zero. What is inverted
when a pair is stored lies above the threshold, and a ring without pairs asks only for the length of
the gradient. -/
namespace Downhill
variable {K M : Type} [ExactField K] {n m : ℕ}

open Exact

/-- The direction of a sound ring is a vector of the field. -/
theorem History.Sound.exists_apply {ring : History (Exact K) m (Vector (Exact K) n)}
    (h : ring.Sound) (g : Fin n → K) : ∃ d, ring.applyTo (lift g) = .ok (lift d) := by
  obtain ⟨a, ha, -⟩ := h.exists_linearMap
  exact ⟨a g, by rw [History.applyTo_vector, ha]⟩

namespace QuasiNewton

/-- The strategy has a sound ring. -/
def Ringed (st : State (Exact K) m (Vector (Exact K) n)) : Prop :=
  ∃ ring, st.history = some ring ∧ ring.Sound

/-- The strategy has an empty ring. -/
def Emptied (st : State (Exact K) m (Vector (Exact K) n)) : Prop :=
  ∃ ring, st.history = some ring ∧ ring.size = 0

omit [ExactField K] in
/-- The ring is at hand for what follows. -/
theorem ensures_current {β : Type} {J : History (Exact K) m (Vector (Exact K) n) → Prop}
    {missing : Fault (Exact K)}
    {f : History (Exact K) m (Vector (Exact K) n) →
      Act (State (Exact K) m (Vector (Exact K) n)) (Exact K) (Vector (Exact K) n) β}
    {Q : Except (Fault (Exact K)) β → _ → Prop}
    (h : ∀ ring, J ring → Ensures (fun t => ∃ ring, t.1.history = some ring ∧ J ring) (f ring) Q) :
    Ensures (fun t => ∃ ring, t.1.history = some ring ∧ J ring) (current missing >>= f) Q := by
  refine Surely.bind (R := fun ring t => J ring ∧ ∃ ring, t.1.history = some ring ∧ J ring)
    (fun t ht => ?_) fun ring => .of_fact (h ring)
  obtain ⟨ring, hring, hsound⟩ := ht
  have hcurrent : (current missing).run.run t = _ := perform_current hring missing t.2
  rw [hcurrent]
  exact ⟨hsound, ring, hring, hsound⟩

/-- A pair is stored or skipped. -/
theorem ensures_learn (a y : Vector (Exact K) n) :
    Ensures (fun t => Ringed t.1)
      (learn a y : Act (State (Exact K) m (Vector (Exact K) n)) (Exact K) _ _)
      (Surely fun _ t => Ringed t.1) := by
  refine ensures_current fun ring hring => ?_
  have hsound := hring.call (.push a y)
  rw [History.call] at hsound
  rw [History.push_eq hring.product_ne] at hsound ⊢
  split_ifs at hsound ⊢ <;> exact fun t _ => ⟨_, rfl, hsound⟩

variable (s : QuasiNewton (Exact K)) (o : Oracle (Exact K) (Vector (Exact K) n) M)

theorem ensures_compute {x : Iterate (Exact K) (Vector (Exact K) n)} {g : Fin n → K}
    (hx : x.gradient = lift g) : Ensures (fun t => Ringed t.1) (s.strategy.compute o x)
      (Surely fun d t => Ringed t.1 ∧ ∃ v, d = lift v) := by
  refine ensures_current fun ring hring => ?_
  obtain ⟨d, hd⟩ := hring.exists_apply g
  rw [hx, hd]
  exact fun t ht => ⟨ht, d, rfl⟩

/-- A run can begin in every dimension but zero. -/
theorem exists_begin (hs : s.check = .ok ()) (h0 : 0 ≤ s.threshold) (hn : 0 < n)
    (x : Vector (Exact K) n) : ∃ st, s.begin x = .ok st ∧ Ringed st := by
  unfold check at hs
  split_ifs at hs with hmemory
  have hbegin := begin_of_pos (s := s) (by omega) (show 0 < Space.size x from hn)
  exact ⟨_, hbegin, exists_sound_of_begin h0 hbegin⟩

variable [SoundRoot K]

theorem reliable : (s.strategy : Strategy _ _ _ M).Reliable o Ringed where
  compute x g hx := Surely.mildly (Surely.imp (ensures_compute s o hx) fun _ _ ht => ht.1)
  reset := ensures_current fun ring hring t _ => ⟨ring.clear, rfl, hring.call .clear⟩
  initialStep g d hg _ := by
    obtain ⟨a, ha, hstep⟩ := exists_cautiousStep hg
    refine ensures_current fun ring _ => .ite (fun _ => ?_) fun _ => .pure fun t ht => ⟨ht, ?_⟩
    · refine Act.ensures_ofExcept_bind hstep (.pure fun t ht => ⟨ht, ?_⟩)
      rintro _ ⟨⟩
      exact ⟨ha, rfl⟩
    · rintro _ ⟨⟩
      exact ⟨one_pos, rfl⟩
  update step g g' d alpha _ := ensures_learn step (lift g' - lift g)

/-- At a gradient of zero the ring is emptied, and the first step divides by its length. -/
theorem stalls : (s.strategy : Strategy _ _ _ M).Stalls o Ringed Emptied .zeroDivision where
  raised := rfl
  compute x _ hx := ensures_compute s o hx
  reset := ensures_current fun ring _ t _ => ⟨ring.clear, rfl, rfl⟩
  initialStep := by
    refine ensures_current fun ring hring => ?_
    rw [if_pos hring, cautiousStep_zero]
    exact fun _ _ => .inl rfl

end QuasiNewton

end Downhill
