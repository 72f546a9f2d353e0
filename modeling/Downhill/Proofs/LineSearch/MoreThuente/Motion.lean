import Downhill.Proofs.LineSearch.Motion
import Downhill.Proofs.LineSearch.MoreThuente.Contract
import Downhill.Proofs.LineSearch.MoreThuente.Extrapolation

/-! The bracketing search in affine coordinates. Its formulas use the values at the ends of the
interval only through their differences, and the line of sufficient decrease rises with the values;
so the interval along the image of a ray has the same steps and slopes, and values that are all
higher by the offset. -/
open Matrix

namespace Downhill.MoreThuente
variable {K : Type} [ExactField K] {n : ℕ}

open Exact AffineChange

/-- The same end for values that are higher by `c`. -/
def End.higher (c : K) (e : End (Exact K)) : End (Exact K) := { e with value := e.value + number c }

def Update.higher (c : K) (u : Update (Exact K)) : Update (Exact K) :=
  { u with best := u.best.higher c, other := u.other.higher c }

/-- An end with numbers of the field, at a step that is not negative. -/
def End.Placed (e : End (Exact K)) : Prop := ∃ e' : End K, 0 ≤ e'.step ∧ e = e'.exact

section Formulas
variable {x y p e : End (Exact K)} (c : K)

@[simp] theorem End.higher_step : (e.higher c).step = e.step := rfl

@[simp] theorem End.higher_slope : (e.higher c).slope = e.slope := rfl

theorem End.Placed.forward (he : e.Placed) : Forward e.step := by
  obtain ⟨e, hpos, rfl⟩ := he
  exact ⟨e.step, hpos, rfl⟩

theorem End.Placed.higher_value_sub (hx : x.Placed) (hp : p.Placed) :
    (x.higher c).value - (p.higher c).value = x.value - p.value := by
  obtain ⟨x, -, rfl⟩ := hx
  obtain ⟨p, -, rfl⟩ := hp
  simp [End.higher]

theorem End.Placed.higher_value_lt (hx : x.Placed) (hp : p.Placed) :
    (x.higher c).value < (p.higher c).value ↔ x.value < p.value := by
  obtain ⟨x, -, rfl⟩ := hx
  obtain ⟨p, -, rfl⟩ := hp
  simp [End.higher]

theorem End.Placed.lowered (he : e.Placed) (t : K) : (e.lowered (number t)).Placed := by
  obtain ⟨e, hpos, rfl⟩ := he
  exact ⟨⟨e.step, e.value - e.step * t, e.slope - t⟩, hpos, e.lowered_exact t⟩

theorem End.Placed.raised (he : e.Placed) (t : K) : (e.raised (number t)).Placed := by
  obtain ⟨e, hpos, rfl⟩ := he
  exact ⟨⟨e.step, e.value + e.step * t, e.slope + t⟩, hpos, by simp [End.raised, End.exact]⟩

theorem End.Placed.lowered_higher (he : e.Placed) (t : K) :
    (e.higher c).lowered (number t) = (e.lowered (number t)).higher c := by
  obtain ⟨e, -, rfl⟩ := he
  simp [End.lowered, End.higher, End.exact, add_sub_right_comm]

theorem End.Placed.raised_higher (he : e.Placed) (t : K) :
    (e.higher c).raised (number t) = (e.raised (number t)).higher c := by
  obtain ⟨e, -, rfl⟩ := he
  simp [End.raised, End.higher, End.exact, add_right_comm]

variable (hx : x.Placed) (hp : p.Placed)
include hx hp

theorem theta_higher : theta (x.higher c) (p.higher c) = theta x p := by
  simp only [theta, hx.higher_value_sub c hp, End.higher_step, End.higher_slope]

theorem cubicFrom_higher : cubicFrom (x.higher c) (p.higher c) = cubicFrom x p := by
  simp only [cubicFrom, theta_higher c hx hp]
  rfl

theorem quadraticFrom_higher : quadraticFrom (x.higher c) (p.higher c) = quadraticFrom x p := by
  simp only [quadraticFrom, hx.higher_value_sub c hp, End.higher_step, End.higher_slope]

theorem stepAfterRise_higher : stepAfterRise (x.higher c) (p.higher c) = stepAfterRise x p := by
  simp only [stepAfterRise, cubicFrom_higher c hx hp, quadraticFrom_higher c hx hp]
  rfl

theorem stepAcross_higher : stepAcross (x.higher c) (p.higher c) = stepAcross x p := by
  simp only [stepAcross, theta_higher c hx hp]
  rfl

theorem stepFlattening_higher (bracketed : Bool) (low high : Exact K) :
    stepFlattening (x.higher c) (y.higher c) (p.higher c) bracketed low high =
      stepFlattening x y p bracketed low high := by
  simp only [stepFlattening, cubicBeyond, theta_higher c hx hp]
  rfl

omit hx in
theorem stepOnward_higher (hy : y.Placed) (bracketed : Bool) (low high : Exact K) :
    stepOnward (x.higher c) (y.higher c) (p.higher c) bracketed low high =
      stepOnward x y p bracketed low high := by
  simp only [stepOnward, hp.higher_value_sub c hy]
  rfl

/-- The formulas for the next trial see only differences of values. -/
theorem trialStep_higher (hy : y.Placed) (bracketed : Bool) (low high : Exact K) :
    trialStep (x.higher c) (y.higher c) (p.higher c) bracketed low high =
      trialStep x y p bracketed low high :=
  if_congr (hx.higher_value_lt c hp) (stepAfterRise_higher c hx hp) <|
    if_congr Iff.rfl (stepAcross_higher c hx hp) <|
      if_congr Iff.rfl (stepFlattening_higher c hx hp bracketed low high)
        (stepOnward_higher c hp hy bracketed low high)

theorem safeguardedStep_higher (hy : y.Placed) (bracketed : Bool) (low high : Exact K) :
    safeguardedStep (x.higher c) (y.higher c) (p.higher c) bracketed low high =
      (safeguardedStep x y p bracketed low high).higher c := by
  simp only [safeguardedStep, trialStep_higher c hx hp hy, hx.higher_value_lt c hp,
    End.higher_slope, apply_ite (Update.higher c)]
  rfl

end Formulas

/-- The state of the search along the image of a ray. -/
def State.moved (m : AffineChange K n) (st : State (Exact K) (Vector (Exact K) n)) :
    State (Exact K) (Vector (Exact K) n) :=
  { st with
    best := st.best.higher m.offset
    other := st.other.higher m.offset
    candidate := st.candidate.map fun b => (b.1, m.iterate b.2) }

/-- The trial and the ends of the interval are numbers, and the best step reached an iterate of the
field. -/
structure Numeric (f : (Fin n → K) → K) (g : (Fin n → K) → Fin n → K)
    (st : State (Exact K) (Vector (Exact K) n)) : Prop where
  trial : Forward st.trial
  best : st.best.Placed
  other : st.other.Placed
  candidate : ∀ a y, st.candidate = some (a, y) → ∃ z, y = iterateAt f g z

section Rounds
variable {m : AffineChange K n} {f : (Fin n → K) → K} {g : (Fin n → K) → Fin n → K}
  {s : MoreThuente (Exact K)} {c1 c2 low slope : K} {st : State (Exact K) (Vector (Exact K) n)}
  {e : End (Exact K)} {x d z : Fin n → K}

theorem Accepted.acceptable_higher (hs : Accepted s c1 c2 low) (he : e.Placed) (y0 c : K) :
    s.acceptable (number (y0 + c)) (number slope) (e.higher c) =
      s.acceptable (number y0) (number slope) e := by
  obtain ⟨e, -, rfl⟩ := he
  simp only [acceptable, hs.c1_eq, End.higher, End.exact, number_add, number_mul, number_le,
    number_lt, add_right_comm y0 c, add_le_add_iff_right, add_lt_add_iff_right]
  rfl

theorem Accepted.earlyStop_moved (hs : Accepted s c1 c2 low) (he : e.Placed) (y0 : K) :
    s.earlyStop (number (y0 + m.offset)) (number slope) (st.moved m) (e.higher m.offset) =
      s.earlyStop (number y0) (number slope) st e := by
  obtain ⟨e, -, rfl⟩ := he
  simp only [earlyStop, hs.c1_eq, End.higher, End.exact, State.moved, number_add, number_mul,
    number_le, number_lt, add_right_comm y0 m.offset, add_le_add_iff_right, add_lt_add_iff_right]
  rfl

theorem Accepted.update_moved (hs : Accepted s c1 c2 low) (hst : Numeric f g st) (he : e.Placed)
    (y0 : K) (firstStage : Bool) :
    s.update (number (y0 + m.offset)) (number slope) (st.moved m) firstStage (e.higher m.offset) =
      (s.update (number y0) (number slope) st firstStage e).higher m.offset := by
  have hline : s.c1 * number slope = number (c1 * slope) := by rw [hs.c1_eq, number_mul]
  have hbest : (e.higher m.offset).value ≤ (st.moved m).best.value ↔ e.value ≤ st.best.value := by
    obtain ⟨⟨e, -, rfl⟩, b, -, hb⟩ := And.intro he hst.best
    simp [State.moved, hb, End.higher]
  have hrise : number (y0 + m.offset) + (e.higher m.offset).step * number (c1 * slope) <
      (e.higher m.offset).value ↔ number y0 + e.step * number (c1 * slope) < e.value := by
    obtain ⟨e, -, rfl⟩ := he
    simp [End.higher, add_right_comm y0 m.offset]
  simp only [update, hline, hbest, hrise]
  -- In the first stage the step is taken for values below the line, which is raised again after it.
  split_ifs with hfirst
  · have hstep := safeguardedStep_higher m.offset (hst.best.lowered (c1 * slope))
      (he.lowered (c1 * slope)) (hst.other.lowered (c1 * slope)) st.bracketed st.low st.high
    have hends := safeguardedStep_ends (P := End.Placed) (hst.best.lowered (c1 * slope))
      (hst.other.lowered (c1 * slope)) (he.lowered (c1 * slope)) st.bracketed st.low st.high
    simp only [State.moved, hst.best.lowered_higher, hst.other.lowered_higher, he.lowered_higher,
      hstep]
    simp only [Update.higher, hends.1.raised_higher, hends.2.raised_higher]
  · exact safeguardedStep_higher m.offset hst.best he hst.other _ _ _

theorem Accepted.update_placed (hs : Accepted s c1 c2 low) (hst : Numeric f g st) (he : e.Placed)
    (f0 : Exact K) (firstStage : Bool) :
    (s.update f0 (number slope) st firstStage e).best.Placed ∧
      (s.update f0 (number slope) st firstStage e).other.Placed := by
  have hline : s.c1 * number slope = number (c1 * slope) := by rw [hs.c1_eq, number_mul]
  simp only [update, hline]
  split_ifs
  · have hends := safeguardedStep_ends (P := End.Placed) (hst.best.lowered (c1 * slope))
      (hst.other.lowered (c1 * slope)) (he.lowered (c1 * slope)) st.bracketed st.low st.high
    exact ⟨hends.1.raised _, hends.2.raised _⟩
  · exact safeguardedStep_ends hst.best hst.other he _ _ _

theorem settle_moved (st : State (Exact K) (Vector (Exact K) n)) (u : Update (Exact K)) :
    s.settle (st.moved m) (u.higher m.offset) = (s.settle st u).moved m := by
  unfold settle
  simp only [apply_ite (State.moved m)]
  rfl

section Judge
variable (m f g x d z)

/-- The image of a trial is a trial along the image of the ray. -/
theorem tried_moved : tried (m.ray (rayAt f g x d)) (st.moved m) (m.iterate (iterateAt f g z)) =
    (tried (rayAt f g x d) st (iterateAt f g z)).higher m.offset := by
  rw [iterate_eq]
  simp [tried, End.higher, iterateAt, State.moved]

variable {m f g x d z}

theorem Numeric.tried (hst : Numeric f g st) :
    (tried (rayAt f g x d) st (iterateAt f g z)).Placed := by
  obtain ⟨a, ha, htrial⟩ := hst.trial
  exact ⟨⟨a, f z, g z ⬝ᵥ d⟩, ha, by simp [MoreThuente.tried, End.exact, htrial, iterateAt]⟩

theorem Accepted.outlasts_moved (hs : Accepted s c1 c2 low) (hst : Numeric f g st) :
    outlasts s (m.ray (rayAt f g x d)) (number slope) (st.moved m) (m.iterate (iterateAt f g z)) =
      outlasts s (rayAt f g x d) (number slope) st (iterateAt f g z) := by
  obtain ⟨e, -, he⟩ := hst.tried (x := x) (d := d) (z := z)
  simp only [outlasts, tried_moved, he, ray_value, rayAt_value, hs.c1_eq, End.higher, End.exact,
    number_mul, number_add, number_le, add_right_comm (f x) m.offset, add_le_add_iff_right]
  rfl

/-- The candidates along the two rays are images of each other. -/
theorem Accepted.candidateAfter_moved (hs : Accepted s c1 c2 low) (hst : Numeric f g st) :
    candidateAfter s (m.ray (rayAt f g x d)) (number slope) (st.moved m)
        (m.iterate (iterateAt f g z)) =
      (candidateAfter s (rayAt f g x d) (number slope) st (iterateAt f g z)).map
        fun b => (b.1, m.iterate b.2) := by
  obtain ⟨a, -, htrial⟩ := hst.trial
  have hlower : ((st.moved m).candidate.all fun b =>
        (m.iterate (iterateAt f g z)).value < b.2.value) =
      st.candidate.all fun b => (iterateAt f g z).value < b.2.value := by
    cases hc : st.candidate with
    | none => simp [State.moved, hc]
    | some b =>
      obtain ⟨z', hz'⟩ := hst.candidate b.1 b.2 hc
      simp only [State.moved, hc, hz', Option.map_some, Option.all_some, iterate_eq]
      simp [iterateAt]
  have hdecrease : sufficientDecrease (m.iterate (iterateAt f g z)).value
      (m.ray (rayAt f g x d)).start.value (st.moved m).trial (number slope) s.c1 =
      sufficientDecrease (iterateAt f g z).value (rayAt f g x d).start.value st.trial
        (number slope) s.c1 := by
    rw [iterate_eq, hs.c1_eq, show (st.moved m).trial = number a from htrial, htrial]
    exact sufficientDecrease_add _ _ _ _ _ _
  rw [candidateAfter, better, hdecrease, hlower, candidateAfter, better, apply_ite (Option.map _)]
  rfl

theorem Numeric.candidateAfter (hst : Numeric f g st) {slope b : Exact K}
    {y : Iterate (Exact K) (Vector (Exact K) n)}
    (hb : candidateAfter s (rayAt f g x d) slope st (iterateAt f g z) = some (b, y)) :
    ∃ z, y = iterateAt f g z := by
  unfold MoreThuente.candidateAfter better at hb
  split_ifs at hb
  · cases hb
    exact ⟨z, rfl⟩
  · exact hst.candidate b y hb

theorem Accepted.numeric_after (hs : Accepted s c1 c2 low) (hst : Numeric f g st)
    (hfin : Scalar.isFinite
      (updateAfter s (rayAt f g x d) (number slope) st (iterateAt f g z)).next = true) :
    Numeric f g (after s (rayAt f g x d) (number slope) st (iterateAt f g z)) := by
  obtain ⟨hbest, hother⟩ : (updateAfter s (rayAt f g x d) (number slope) st
      (iterateAt f g z)).best.Placed ∧
      (updateAfter s (rayAt f g x d) (number slope) st (iterateAt f g z)).other.Placed :=
    hs.update_placed hst (hst.tried (x := x) (d := d) (z := z)) (number (f x)) _
  refine ⟨hs.forward_settle hbest.forward hother.forward hfin, ?_, ?_, fun b y hb => ?_⟩
  · rwa [after, settle_best]
  · rwa [after, settle_other]
  · rw [after, settle_candidate] at hb
    exact hst.candidateAfter hb

theorem steps_conclude {candidate : Option (Exact K × Iterate (Exact K) (Vector (Exact K) n))}
    (h : ∀ b y, candidate = some (b, y) → ∃ z, y = iterateAt f g z) (trials : ℕ)
    (cause : EarlyStop) :
    m.Steps f g (conclude (rayAt f g x d) candidate trials cause)
      (conclude (m.ray (rayAt f g x d)) (candidate.map fun b => (b.1, m.iterate b.2)) trials
        cause) := by
  cases candidate with
  | none => exact m.steps_failed f g x d _ _ _
  | some b =>
    obtain ⟨z, hz⟩ := h b.1 b.2 rfl
    simp only [conclude, Option.map_some, hz]
    exact m.steps_accepted f g z _ _ _ _

/-- After a trial and its image both searches stop with a step and its image, or both go on. -/
theorem Accepted.judge_moved (hs : Accepted s c1 c2 low) (hst : Numeric f g st) :
    Sum.LiftRel (fun st st' => st' = st.moved m ∧ Numeric f g st) (m.Steps f g)
      (s.judge (rayAt f g x d) (number slope) st (iterateAt f g z))
      (s.judge (m.ray (rayAt f g x d)) (number slope) (st.moved m)
        (m.iterate (iterateAt f g z))) := by
  let r := rayAt f g x d
  let y := iterateAt f g z
  have htried : (tried r st y).Placed := hst.tried
  have hacc : s.acceptable (m.ray r).start.value (number slope)
      (tried (m.ray r) (st.moved m) (m.iterate y)) =
      s.acceptable r.start.value (number slope) (tried r st y) := by
    rw [tried_moved]
    exact hs.acceptable_higher htried (f x) m.offset
  have hstop : s.earlyStop (m.ray r).start.value (number slope) (st.moved m)
      (tried (m.ray r) (st.moved m) (m.iterate y)) =
      s.earlyStop r.start.value (number slope) st (tried r st y) := by
    rw [tried_moved]
    exact hs.earlyStop_moved htried (f x)
  have hcandidate : candidateAfter s (m.ray r) (number slope) (st.moved m) (m.iterate y) = _ :=
    hs.candidateAfter_moved hst
  have hupdate : updateAfter s (m.ray r) (number slope) (st.moved m) (m.iterate y) =
      (updateAfter s r (number slope) st y).higher m.offset := by
    rw [updateAfter, hs.outlasts_moved hst, tried_moved]
    exact hs.update_moved hst htried (f x) _
  have hafter : after s (m.ray r) (number slope) (st.moved m) (m.iterate y) =
      (after s r (number slope) st y).moved m := by
    rw [after, hs.outlasts_moved hst, hcandidate, hupdate]
    exact settle_moved
      { st with
        firstStage := outlasts s r (number slope) st y
        candidate := candidateAfter s r (number slope) st y
        trials := st.trials + 1 } _
  cases haccept : s.acceptable r.start.value (number slope) (tried r st y) with
  | true =>
    rw [judge_eq_accepted _ _ _ _ _ haccept, judge_eq_accepted _ _ _ _ _ (hacc.trans haccept)]
    exact .inr (m.steps_accepted f g z _ _ _ _)
  | false =>
    cases hcause : s.earlyStop r.start.value (number slope) st (tried r st y) with
    | some cause =>
      rw [judge_eq_stopped _ _ _ _ _ haccept hcause,
        judge_eq_stopped _ _ _ _ _ (hacc.trans haccept) (hstop.trans hcause), hcandidate]
      exact .inr (steps_conclude (fun _ _ => hst.candidateAfter) _ _)
    | none =>
      have hnext : (updateAfter s (m.ray r) (number slope) (st.moved m) (m.iterate y)).next =
          (updateAfter s r (number slope) st y).next := by rw [hupdate]; rfl
      by_cases hfin : Scalar.isFinite (updateAfter s r (number slope) st y).next = true
      · rw [judge_eq_after _ _ _ _ _ haccept hcause hfin,
          judge_eq_after _ _ _ _ _ (hacc.trans haccept) (hstop.trans hcause) (hnext ▸ hfin), hafter]
        exact .inl ⟨rfl, hs.numeric_after hst hfin⟩
      · rw [judge_eq_unusable _ _ _ _ _ haccept hcause hfin,
          judge_eq_unusable _ _ _ _ _ (hacc.trans haccept) (hstop.trans hcause) (hnext ▸ hfin),
          hcandidate]
        exact .inr (steps_conclude (fun _ _ => hst.candidateAfter) _ _)

end Judge

end Rounds

variable {m : AffineChange K n} {f : (Fin n → K) → K} {g : (Fin n → K) → Fin n → K}
  {o o' : Oracle (Exact K) (Vector (Exact K) n) (Matrix (Exact K) n)} {s : MoreThuente (Exact K)}

/-- Both searches narrow the same intervals. -/
theorem matches_search (h : m.Carries f g o o') (hs : s.check = .ok ()) (x d : Fin n → K)
    (asked : Option (Exact K)) :
    Eval.Matches (m.Steps f g) (s.search o (rayAt f g x d) asked)
      (s.search o' (m.ray (rayAt f g x d)) asked) := by
  obtain ⟨c1, c2, low, hacc⟩ := exists_accepted hs
  refine matches_prepared fun a _ => ?_
  have hplaced : End.Placed (⟨0, number (f x), number (g x ⬝ᵥ d)⟩ : End (Exact K)) :=
    ⟨⟨0, f x, g x ⬝ᵥ d⟩, le_rfl, rfl⟩
  have hstart : Numeric f g (s.initial (number (f x)) (number (g x ⬝ᵥ d))
      (Scalar.clamp s.alphaMin s.alphaMax (number a))) :=
    ⟨hacc.forward_clamp rfl, hplaced, hplaced, fun _ _ h => by cases h⟩
  refine .rounds (I := fun st st' => st' = st.moved m ∧ Numeric f g st) (C := m.Steps f g) ?_
    ⟨rfl, hstart⟩ _ ?_
  · rintro st _ ⟨rfl, hst⟩
    obtain ⟨a, -, htrial⟩ := hst.trial
    have hmoved : (st.moved m).trial = number a := htrial
    simp only [attempt, htrial, hmoved, rayAt_along, ray_along]
    refine (h.value _).next ((h.gradient _).next ?_)
    refine .of_ok rfl rfl (.of_ok (if_pos (allFinite_lift _)) (if_pos (allFinite_lift _)) ?_)
    refine .of_ok rfl rfl (.pure ?_)
    rw [← m.iterate_eq f g]
    exact hacc.judge_moved hst
  · rintro _ _ (⟨rfl, hst⟩ | hsteps)
    · exact .pure (steps_conclude hst.candidate _ _)
    · exact .pure hsteps

end Downhill.MoreThuente

namespace Downhill
variable {K : Type} [ExactField K] {n : ℕ} {m : AffineChange K n} {f : (Fin n → K) → K}
  {g : (Fin n → K) → Fin n → K}
  {o o' : Oracle (Exact K) (Vector (Exact K) n) (Matrix (Exact K) n)}

open Exact AffineChange

/-- Along a ray and its image every search of the library settles on a step and its image, with the
same counts and the same message, or raises the same fault. -/
theorem LineSearch.matches_search {s : LineSearch (Exact K)} (h : m.Carries f g o o')
    (hs : s.check = .ok ()) (x d : Fin n → K) (asked : Option (Exact K)) :
    Eval.Matches (m.Steps f g) (s.search o (rayAt f g x d) asked)
      (s.search o' (m.ray (rayAt f g x d)) asked) := by
  cases s with
  | base => exact .throw _
  | backtracking s => exact Backtracking.matches_search h hs x d asked
  | cubic s => exact CubicBacktracking.matches_search h hs x d asked
  | bisection s => exact Bisection.matches_search h hs x d asked
  | moreThuente s => exact MoreThuente.matches_search h hs x d asked

end Downhill
