import Downhill.Proofs.LineSearch.MoreThuente.Invariant
import Downhill.Proofs.LineSearch.MoreThuente.Trace

/-! The rounds of a bracketing search, one after the other, on a problem. At the start of every
round the ends of the interval are the start or trials of earlier rounds, with the value and the
slope that the problem has there, and they stand as the invariant says. -/
namespace Downhill.MoreThuente
variable {K M : Type} [ExactField K] {n : ℕ} {s : MoreThuente (Exact K)}
  {p : Problem (Exact K) (Vector (Exact K) n) M} {r : Ray (Exact K) (Vector (Exact K) n)}
  {slope alpha : Exact K} {asked : Option (Exact K)} {l : Ledger (Exact K) (Vector (Exact K) n)}

open Exact

/-- A search from the trial `alpha` begins round `k`, counted from zero, in the state `st`. -/
def Begins (s : MoreThuente (Exact K)) (p : Problem (Exact K) (Vector (Exact K) n) M)
    (r : Ray (Exact K) (Vector (Exact K) n)) (slope alpha : Exact K)
    (l : Ledger (Exact K) (Vector (Exact K) n)) (k : ℕ)
    (st : State (Exact K) (Vector (Exact K) n)) : Prop :=
  ∃ l', (upTo (s.attempt p.oracle.recorded r slope) k (s.initial r.start.value slope
    (Scalar.clamp s.alphaMin s.alphaMax alpha))).perform l = (.ok (.inl st), l')

/-- A round before round `k` tries the step `a`. -/
def TriedBefore (s : MoreThuente (Exact K)) (p : Problem (Exact K) (Vector (Exact K) n) M)
    (r : Ray (Exact K) (Vector (Exact K) n)) (slope alpha : Exact K)
    (l : Ledger (Exact K) (Vector (Exact K) n)) (k : ℕ) (a : Exact K) : Prop :=
  ∃ j < k, ∃ st, Begins s p r slope alpha l j st ∧ st.trial = a

/-- An end of the interval is the start, or an earlier trial at a positive step, with the value and
the slope that the problem has there. -/
def Genuine (p : Problem (Exact K) (Vector (Exact K) n) M) (r : Ray (Exact K) (Vector (Exact K) n))
    (earlier : Exact K → Prop) (e : End (Exact K)) : Prop :=
  (e.step = 0 ∧ p.value r.start.point = .ok e.value ∧
    e.slope = dot r.start.gradient r.direction) ∨
  (0 < e.step ∧ earlier e.step ∧ p.value (r.along e.step) = .ok e.value ∧
    ∃ g, p.gradient (r.along e.step) = .ok g ∧ e.slope = dot g r.direction)

/-- How far an end lies above the sufficient-decrease line. -/
def aboveLine (s : MoreThuente (Exact K)) (f0 slope : Exact K) (e : End (Exact K)) : Exact K :=
  e.value - f0 - s.c1 * e.step * slope

/-- What holds at the start of a round, where `earlier` are the steps that were tried. -/
structure LoopInvariant (s : MoreThuente (Exact K)) (p : Problem (Exact K) (Vector (Exact K) n) M)
    (r : Ray (Exact K) (Vector (Exact K) n)) (slope : Exact K) (earlier : Exact K → Prop)
    (st : State (Exact K) (Vector (Exact K) n)) : Prop where
  best_genuine : Genuine p r earlier st.best
  other_genuine : Genuine p r earlier st.other
  best_line : aboveLine s r.start.value slope st.best ≤ 0
  candidate_none : st.candidate = none ↔ st.best.step = 0
  candidate_value : ∀ a y, st.candidate = some (a, y) → y.value = st.best.value
  unbracketed : st.bracketed = false →
    st.firstStage = true ∧ st.best.step < st.trial ∧ st.best.slope < s.c1 * slope
  /-- A trial at the best end is the last one. -/
  bracketed : st.bracketed = true → Between st.best.step st.other.step st.trial ∨
    st.trial = st.best.step ∧ ∀ l st' l',
      (s.attempt p.oracle.recorded r slope st).perform l ≠ (.ok (.inl st'), l')
  first : st.bracketed = true → st.firstStage = true →
    st.best.step < st.other.step ∧ st.best.slope < s.c1 * slope ∧
      aboveLine s r.start.value slope st.best < aboveLine s r.start.value slope st.other
  second : st.firstStage = false → st.bracketed = true ∧ st.best.value ≤ st.other.value ∧
    st.best.slope * (st.other.step - st.best.step) < 0

theorem begins_zero {st : State (Exact K) (Vector (Exact K) n)}
    (h : Begins s p r slope alpha l 0 st) :
    st = s.initial r.start.value slope (Scalar.clamp s.alphaMin s.alphaMax alpha) := by
  obtain ⟨l', h⟩ := h
  exact (reaches_zero.mp h).1

theorem exists_of_begins_succ {k : ℕ} {st' : State (Exact K) (Vector (Exact K) n)}
    (h : Begins s p r slope alpha l (k + 1) st') :
    ∃ st l₁ l₂, Begins s p r slope alpha l k st ∧
      (s.attempt p.oracle.recorded r slope st).perform l₁ = (.ok (.inl st'), l₂) := by
  obtain ⟨l', h⟩ := h
  obtain ⟨st, l₁, hst, hround⟩ := reaches_succ.mp h
  exact ⟨st, l₁, l', ⟨l₁, hst⟩, hround⟩

/-- A round that goes on has judged a trial with the value and the gradient of the problem. -/
theorem exists_of_attempt {st st' : State (Exact K) (Vector (Exact K) n)}
    {l₁ l₂ : Ledger (Exact K) (Vector (Exact K) n)}
    (h : (s.attempt p.oracle.recorded r slope st).perform l₁ = (.ok (.inl st'), l₂)) :
    ∃ y, Tried p.oracle r st y ∧ Space.finite y.gradient = true ∧
      s.judge r slope st y = .inl st' := by
  obtain ⟨y, hy, hj⟩ := exists_hears h
  obtain ⟨hvalue, hgradient⟩ := hy.faithful p.quiet_oracle
  exact ⟨y, ⟨hy.point_eq, hvalue, hgradient, hy.value_finite⟩, hy.gradient_finite, hj.symm⟩

/-- Where the slope at the start is a number, the value and the slope at a trial are. -/
theorem Tried.exists_numbers {st : State (Exact K) (Vector (Exact K) n)}
    {y : Iterate (Exact K) (Vector (Exact K) n)} {m : K} (h : Tried p.oracle r st y)
    (hfin : Space.finite y.gradient = true) (hslope : dot r.start.gradient r.direction = number m) :
    ∃ f d, y.value = number f ∧ dot y.gradient r.direction = number d := by
  obtain ⟨f, hf⟩ := isFinite_iff.mp h.value_finite
  obtain ⟨d, hd⟩ := exists_dot_eq hslope hfin
  exact ⟨f, d, hf, hd⟩

/-- A trial of a round before round `k`, with what the problem has there. -/
def Tested (s : MoreThuente (Exact K)) (p : Problem (Exact K) (Vector (Exact K) n) M)
    (r : Ray (Exact K) (Vector (Exact K) n)) (slope alpha : Exact K)
    (l : Ledger (Exact K) (Vector (Exact K) n)) (k : ℕ) (e : End K) : Prop :=
  TriedBefore s p r slope alpha l k (number e.step) ∧
    p.value (r.along (number e.step)) = .ok (number e.value) ∧
    ∃ g, p.gradient (r.along (number e.step)) = .ok g ∧ number e.slope = dot g r.direction

theorem Tested.succ {k : ℕ} {e : End K} (h : Tested s p r slope alpha l k e) :
    Tested s p r slope alpha l (k + 1) e := by
  obtain ⟨⟨j, hj, htried⟩, htrue⟩ := h
  exact ⟨⟨j, Nat.lt_succ_of_lt hj, htried⟩, htrue⟩

section Reading
variable {c1 c2 low f0 m t : K} {x y e : End K} {k : ℕ}
  {st : State (Exact K) (Vector (Exact K) n)}

theorem aboveLine_exact (hs : Accepted s c1 c2 low) :
    aboveLine s (number f0) (number m) e.exact = number (e.excess f0 (c1 * m)) := by
  have hline : c1 * e.step * m = e.step * (c1 * m) := by ring
  simp [aboveLine, hs.c1_eq, End.excess, hline]

theorem genuine_exact (hstart : p.value r.start.point = .ok (number f0))
    (hslope : dot r.start.gradient r.direction = number m)
    (he : e = ⟨0, f0, m⟩ ∨ 0 < e.step ∧ Tested s p r slope alpha l k e) :
    Genuine p r (TriedBefore s p r slope alpha l k) e.exact := by
  obtain rfl | ⟨hpos, htried, hvalue, hgradient⟩ := he
  · exact .inl ⟨rfl, hstart, hslope.symm⟩
  · exact .inr ⟨number_lt.mpr hpos, htried, hvalue, hgradient⟩

theorem Invariant.not_goes_on (hs : Accepted s c1 c2 low) (hf0 : r.start.value = number f0)
    {tested : End K → Prop} (h : Invariant s c1 low f0 m tested st x y t) (ht : t = x.step)
    (hb : st.bracketed = true) (hslope : dot r.start.gradient r.direction = number m)
    (l₁ : Ledger (Exact K) (Vector (Exact K) n)) (st' : State (Exact K) (Vector (Exact K) n))
    (l₂ : Ledger (Exact K) (Vector (Exact K) n)) :
    (s.attempt p.oracle.recorded r (number m) st).perform l₁ ≠ (.ok (.inl st'), l₂) := by
  intro hattempt
  obtain ⟨z, htried, hfin, hj⟩ := exists_of_attempt hattempt
  obtain ⟨f, d, hf, hd⟩ := htried.exists_numbers hfin hslope
  obtain ⟨-, hstop, -, -⟩ := judge_eq_inl s r (number m) st z hj
  rw [tried, h.trial_eq, hf, show Space.inner z.gradient r.direction = number d from hd, hf0]
    at hstop
  obtain ⟨hlt, -⟩ | ⟨-, hlt⟩ := (h.inside (p := ⟨t, f, d⟩) hs hstop).1 hb
  · exact hlt.ne ht.symm
  · exact hlt.ne ht

/-- The invariant in terms of the search and the problem. -/
theorem Invariant.loopInvariant (hs : Accepted s c1 c2 low) (hf0 : r.start.value = number f0)
    (hslope : dot r.start.gradient r.direction = number m)
    (hstart : p.value r.start.point = .ok r.start.value)
    (h : Invariant s c1 low f0 m (Tested s p r slope alpha l k) st x y t) :
    LoopInvariant s p r (number m) (TriedBefore s p r slope alpha l k) st := by
  have hint := h.interval
  rw [hf0] at hstart
  refine ⟨?_, ?_, ?_, ?_, ?_, fun hb => ?_, fun hb => ?_, fun hb hfirst => ?_, fun hsecond => ?_⟩
  · rw [h.best_eq]
    exact genuine_exact hstart hslope h.best_tested
  · rw [h.other_eq]
    exact genuine_exact hstart hslope h.other_tested
  · rw [h.best_eq, hf0, aboveLine_exact hs]
    exact number_le.mpr hint.best_excess
  · rw [h.best_eq, h.agrees.1]
    simp
  · intro a z hz
    rw [h.best_eq]
    exact h.agrees.2 a z hz
  · have hfirst := hint.unbracketed hb
    rw [h.best_eq, h.trial_eq, hs.c1_eq]
    exact ⟨hfirst, (h.ahead hb).right, hint.steep hfirst⟩
  · rw [h.best_eq, h.other_eq, h.trial_eq]
    refine (h.framed hb).trial.imp (fun hbetween => hbetween) fun ht => ⟨congrArg number ht, ?_⟩
    exact h.not_goes_on hs hf0 ht hb hslope
  · obtain ⟨hlt, hex, -⟩ := hint.first hb hfirst
    rw [h.best_eq, h.other_eq, hf0, hs.c1_eq, aboveLine_exact hs, aboveLine_exact hs]
    exact ⟨hlt, hint.steep hfirst, hex⟩
  · obtain ⟨hle, hneg, -⟩ := hint.second hsecond
    rw [h.best_eq, h.other_eq]
    refine ⟨hint.bracketed_of_second hsecond, hle, ?_⟩
    simpa using hneg

end Reading

section Numbers
variable {c1 c2 low f0 m a : K} (hs : Accepted s c1 c2 low) (hm : m < 0) (ha : 0 < a)
  (hf0 : r.start.value = number f0) (hslope : dot r.start.gradient r.direction = number m)
include hs hm ha hf0 hslope

theorem exists_invariant {k : ℕ} {st : State (Exact K) (Vector (Exact K) n)}
    (h : Begins s p r (number m) (number a) l k st) :
    ∃ x y t, Invariant s c1 low f0 m (Tested s p r (number m) (number a) l k) st x y t := by
  induction k generalizing st with
  | zero =>
    rw [begins_zero h, hf0]
    exact ⟨_, _, Invariant.initial hs hm ha⟩
  | succ k ih =>
    obtain ⟨st₀, l₁, l₂, hbegins, hattempt⟩ := exists_of_begins_succ h
    obtain ⟨z, htried, hfin, hj⟩ := exists_of_attempt hattempt
    obtain ⟨x, y, t, hinv⟩ := ih hbegins
    obtain ⟨f, d, hf, hd⟩ := htried.exists_numbers hfin hslope
    obtain ⟨x', y', t', hinv'⟩ := hinv.judge (p := ⟨t, f, d⟩) hs hm hf0 hf hd hj
    refine ⟨x', y', t', hinv'.mono ?_⟩
    rintro e (he | rfl)
    · exact he.succ
    · have hpoint := htried.point_eq
      rw [hinv.trial_eq] at hpoint
      refine ⟨⟨k, Nat.lt_succ_self k, st₀, hbegins, hinv.trial_eq⟩, ?_, z.gradient, ?_, hd.symm⟩
      · rw [← hpoint, ← hf]
        exact htried.value_eq
      · rw [← hpoint]
        exact htried.gradient_eq

end Numbers

/-- The invariant of the search: at the start of every round, on every problem, from every start
with its value and a finite negative slope, and with any accepted parameters. -/
theorem loopInvariant_of_begins (hs : s.check = .ok ())
    (hprepare : r.prepare s.alpha0 asked = .ok (slope, alpha))
    (hstart : p.value r.start.point = .ok r.start.value)
    (hvalue : Scalar.isFinite r.start.value = true) (hslope : Scalar.isFinite slope = true)
    {k : ℕ} {st : State (Exact K) (Vector (Exact K) n)} (h : Begins s p r slope alpha l k st) :
    LoopInvariant s p r slope (TriedBefore s p r slope alpha l k) st := by
  obtain ⟨c1, c2, low, haccepted⟩ := exists_accepted hs
  obtain ⟨rfl, hneg, hpos, hfin⟩ := Ray.prepare_eq_ok hprepare
  obtain ⟨a, ha, rfl⟩ := exists_of_pos hpos hfin
  obtain ⟨f0, hf0⟩ := isFinite_iff.mp hvalue
  obtain ⟨m, hm⟩ := isFinite_iff.mp hslope
  rw [hm] at hneg h ⊢
  obtain ⟨x, y, t, hinv⟩ := exists_invariant haccepted hneg ha hf0 hm h
  exact hinv.loopInvariant haccepted hf0 hm hstart

deriving instance DecidableEq for State

/-- On the bowl the first trial overshoots: the second round begins with a bracketed interval, whose
best end is still the start. -/
theorem loopInvariant_of_begins_bowl :
    let s : MoreThuente (Exact ℚ) := .standard 0.9
    let r : Ray (Exact ℚ) (Vector (Exact ℚ) 2) := ⟨⟨#v[0, 0], 0, #v[-3, -3]⟩, #v[3, 3]⟩
    ∃ st, Begins s LineSearch.bowl r (-18) 1 {} 1 st ∧
      (st.bracketed = true ∧ st.firstStage = true ∧ st.trial = number (1 / 3)) ∧
      st.best.step < st.other.step ∧ Genuine LineSearch.bowl r
        (TriedBefore s LineSearch.bowl r (-18) 1 {} 1) st.other := by
  intro s r
  have hround : ∃ st, Begins s LineSearch.bowl r (-18) 1 {} 1 st ∧
      (st.bracketed = true ∧ st.firstStage = true ∧ st.trial = number (1 / 3)) := by
    refine ⟨⟨number (1 / 3), ⟨0, 0, -18⟩, ⟨1, 9, 36⟩, true, true, 1, 1e20 - 1e-20, 0, 1, none, 1⟩,
      ⟨_, Prod.ext ?_ rfl⟩, rfl, rfl, rfl⟩
    decide +kernel
  obtain ⟨st, hbegins, hst⟩ := hround
  have hprepare : r.prepare s.alpha0 none = .ok (-18, 1) := by decide +kernel
  have hinv := loopInvariant_of_begins (by decide +kernel) hprepare (by decide +kernel) rfl rfl
    hbegins
  exact ⟨st, hbegins, hst, (hinv.first hst.1 hst.2.1).1, hinv.other_genuine⟩

end Downhill.MoreThuente
