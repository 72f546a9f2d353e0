import Downhill.Proofs.LineSearch.Contraction
import Downhill.Proofs.LineSearch.Halving
import Downhill.Proofs.LineSearch.MoreThuente.Trace

/-! The bracket of the search by doubling and halving, trial by trial. A trial that is no Wolfe step
becomes one of its ends, whether the search goes on or not, and what is stored as the best step is
always the lower end. The brackets are nested, so no step is tried twice; they double in size until
there is an upper end and are halved from then on. -/
namespace Downhill.Bisection
variable {K M : Type} [ExactField K] {n : ℕ} {s : Bisection (Exact K)}
  {p : Problem (Exact K) (Vector (Exact K) n) M} {r : Ray (Exact K) (Vector (Exact K) n)}
  {slope alpha : Exact K} {l l' : Ledger (Exact K) (Vector (Exact K) n)}
  {t u : State (Exact K) (Vector (Exact K) n)} {k : ℕ} {a : K} {φ : K → K} {γ : K → Fin n → K}

open Exact

namespace State

/-- The steps strictly between the ends. -/
def bracket (t : State (Exact K) (Vector (Exact K) n)) : Set (Exact K) :=
  {a | t.low < a ∧ ∀ b, t.high = some b → a < b}

/-- The ends and the trial are numbers: the lower end is not negative, and the trial lies strictly
between the ends. -/
def Ordered (t : State (Exact K) (Vector (Exact K) n)) : Prop :=
  ∃ a b, t.low = number a ∧ t.alpha = number b ∧ 0 ≤ a ∧ a < b ∧
    ∀ h, t.high = some h → ∃ c, h = number c ∧ b < c

theorem Ordered.trial_mem (h : t.Ordered) : t.alpha ∈ t.bracket := by
  obtain ⟨a, b, hlow, halpha, -, hab, hhigh⟩ := h
  constructor
  · rw [hlow, halpha]
    exact number_lt.mpr hab
  · intro h hh
    obtain ⟨c, rfl, hbc⟩ := hhigh h hh
    rw [halpha]
    exact number_lt.mpr hbc

theorem Ordered.pos (h : t.Ordered) : 0 < t.alpha := by
  obtain ⟨a, b, -, halpha, ha, hab, -⟩ := h
  rw [halpha]
  exact number_lt.mpr (ha.trans_lt hab)

end State

section Trials
variable (s p r slope)

/-- The value at a step violates sufficient decrease. -/
def Rises (a : Exact K) : Prop :=
  ∃ f, p.value (r.along a) = .ok f ∧ ¬ sufficientDecrease f r.start.value a slope s.c1 = true

/-- `y` is what is found at a step: the value there satisfies sufficient decrease, and the slope
violates the curvature condition. -/
structure Falls (a : Exact K) (y : Iterate (Exact K) (Vector (Exact K) n)) : Prop where
  point : y.point = r.along a
  value : p.value y.point = .ok y.value
  gradient : p.gradient y.point = .ok y.gradient
  decreases : sufficientDecrease y.value r.start.value a slope s.c1 = true
  steep : ¬ s.c2 * slope ≤ Space.inner y.gradient r.direction

/-- What a trial makes of the state if it is no Wolfe step: it becomes an end of the bracket. -/
inductive Leaves (u : State (Exact K) (Vector (Exact K) n)) :
    State (Exact K) (Vector (Exact K) n) → Prop
  | upper (rises : Rises s p r slope u.alpha) :
      Leaves u { u with
        alpha := nextStep u.low (some u.alpha), high := some u.alpha, values := u.values + 1 }
  | lower {y : Iterate (Exact K) (Vector (Exact K) n)} (falls : Falls s p r slope u.alpha y) :
      Leaves u ⟨nextStep u.alpha u.high, u.alpha, u.high, some (u.alpha, y), u.values + 1,
        u.gradients + 1⟩

variable (alpha l)

/-- After `k` trials the search is in the state `t`, whether it goes on from there or not. -/
def Visits : ℕ → State (Exact K) (Vector (Exact K) n) → Prop
  | 0, t => t = initial alpha
  | k + 1, t => k < s.maxIter.toNat ∧ ∃ u, Begins s p r slope alpha l k u ∧ Leaves s p r slope u t

/-- The step is that of one of the first `k` trials. -/
def Tried (k : ℕ) (a : Exact K) : Prop :=
  ∃ j < k, ∃ u, Begins s p r slope alpha l j u ∧ u.alpha = a

/-- The bracket after `k` trials: its ends are trials that were made, or the ends that it had at the
start, the best step is the lower one, and it lies in all the brackets before. The next step has not
been tried. -/
structure KeepsBracket (k : ℕ) (t : State (Exact K) (Vector (Exact K) n)) : Prop where
  ordered : t.Ordered
  high : ∀ b, t.high = some b → Tried s p r slope alpha l k b ∧ Rises s p r slope b
  low : t.low = 0 ∧ t.best = none ∨ Tried s p r slope alpha l k t.low ∧
    ∃ y, t.best = some (t.low, y) ∧ Falls s p r slope t.low y
  nested : ∀ j < k, ∀ u, Begins s p r slope alpha l j u → t.bracket ⊂ u.bracket
  fresh : ¬ Tried s p r slope alpha l k t.alpha

end Trials

/-- The trial of `u` has led to `t`: it became an end and the other end stayed, it is doubled where
there is no upper end, and a bracket with an upper end was halved. -/
structure Narrows (u t : State (Exact K) (Vector (Exact K) n)) : Prop where
  ends : t.low = u.low ∧ t.high = some u.alpha ∨ t.low = u.alpha ∧ t.high = u.high
  doubled : t.high = none → t.alpha = 2.0 * u.alpha
  halved : ∀ b, u.high = some b → ∃ b', t.high = some b' ∧ b' - t.low = 0.5 * (b - u.low)

namespace Leaves

theorem ordered (h : Leaves s p r slope u t) (hu : u.Ordered) : t.Ordered := by
  obtain ⟨a, b, hlow, halpha, ha, hab, hhigh⟩ := hu
  cases h with
  | upper rises =>
    refine ⟨a, 0.5 * (a + b), hlow, ?_, ha, ?_, ?_⟩
    · simp [nextStep, hlow, halpha]
    · norm_num
      linarith
    · rintro h ⟨⟩
      refine ⟨b, halpha, ?_⟩
      norm_num
      linarith
  | lower falls =>
    cases hh : u.high with
    | none =>
      refine ⟨b, 2.0 * b, halpha, ?_, ha.trans hab.le, ?_, fun h hh => ?_⟩
      · simp [nextStep, halpha]
      · norm_num
        linarith
      · cases hh
    | some h =>
      obtain ⟨c, rfl, hbc⟩ := hhigh h hh
      refine ⟨b, 0.5 * (b + c), halpha, ?_, ha.trans hab.le, ?_, ?_⟩
      · simp [nextStep, halpha]
      · norm_num
        linarith
      · rintro h ⟨⟩
        refine ⟨c, rfl, ?_⟩
        norm_num
        linarith

theorem ends (h : Leaves s p r slope u t) :
    t.low = u.low ∧ t.high = some u.alpha ∨ t.low = u.alpha ∧ t.high = u.high := by
  cases h with
  | upper => exact .inl ⟨rfl, rfl⟩
  | lower => exact .inr ⟨rfl, rfl⟩

theorem next (h : Leaves s p r slope u t) : t.alpha = nextStep t.low t.high := by
  cases h <;> rfl

theorem trial_not_mem (h : Leaves s p r slope u t) : u.alpha ∉ t.bracket := by
  rintro ⟨hlow, hhigh⟩
  rcases h.ends with ⟨-, h2⟩ | ⟨h1, -⟩
  · exact Exact.lt_irrefl _ (hhigh _ h2)
  · rw [h1] at hlow
    exact Exact.lt_irrefl _ hlow

theorem bracket_ssubset (h : Leaves s p r slope u t) (hu : u.Ordered) :
    t.bracket ⊂ u.bracket := by
  have hmem := hu.trial_mem
  apply Set.ssubset_iff_exists.mpr
  refine ⟨?_, u.alpha, hmem, h.trial_not_mem⟩
  rintro x ⟨hlow, hhigh⟩
  rcases h.ends with ⟨h1, h2⟩ | ⟨h1, h2⟩
  · rw [h1] at hlow
    exact ⟨hlow, fun b hb => Exact.lt_trans (hhigh _ h2) (hmem.2 b hb)⟩
  · rw [h1] at hlow
    exact ⟨Exact.lt_trans hmem.1 hlow, fun b hb => hhigh b (h2.trans hb)⟩

theorem doubled (h : Leaves s p r slope u t) (hhigh : t.high = none) :
    t.alpha = 2.0 * u.alpha := by
  rw [h.next, hhigh]
  rcases h.ends with ⟨-, h2⟩ | ⟨h1, -⟩
  · rw [hhigh] at h2
    cases h2
  · rw [h1]
    rfl

/-- A trial in the middle of the bracket halves it. -/
theorem halved (h : Leaves s p r slope u t) (hu : u.Ordered)
    (hmiddle : u.alpha = nextStep u.low u.high) {b : Exact K} (hb : u.high = some b) :
    ∃ b', t.high = some b' ∧ b' - t.low = 0.5 * (b - u.low) := by
  obtain ⟨x, _, hlow, -, -, -, hhigh⟩ := hu
  obtain ⟨z, rfl, -⟩ := hhigh b hb
  have halpha : u.alpha = number (0.5 * (x + z)) := by
    rw [hmiddle, hb, hlow]
    simp [nextStep]
  rcases h.ends with ⟨h1, h2⟩ | ⟨h1, h2⟩
  · refine ⟨_, h2, ?_⟩
    rw [h1, halpha, hlow]
    simp
    ring
  · refine ⟨_, h2.trans hb, ?_⟩
    rw [h1, halpha, hlow]
    simp
    ring

end Leaves

theorem Tried.succ {x : Exact K} (h : Tried s p r slope alpha l k x) :
    Tried s p r slope alpha l (k + 1) x := by
  obtain ⟨j, hj, htried⟩ := h
  exact ⟨j, Nat.lt_succ_of_lt hj, htried⟩

theorem Visits.le_cap (h : Visits s p r slope alpha l k t) : k ≤ s.maxIter.toNat := by
  cases k with
  | zero => exact Nat.zero_le _
  | succ k => exact h.1

theorem Begins.unique (h : Begins s p r slope alpha l k t) (h' : Begins s p r slope alpha l k u) :
    t = u := by
  obtain ⟨_, h⟩ := h
  obtain ⟨_, h'⟩ := h'
  rw [h] at h'
  cases h'
  rfl

/-- A trial at a number has an answer: the state that it leaves, unless the search ends there, or
the step that the search ends with. -/
theorem replies_attempt_leaves (hwolfe : s.wolfe = true) (h : r.Samples p.oracle φ γ)
    (hu : u.Ordered) :
    Replies (s.attempt p.oracle.recorded r slope u) (Sum.elim (Leaves s p r slope u) fun step =>
      step.message = .wolfe ∨
        ∃ t, Leaves s p r slope u t ∧ s.exhausted t = true ∧ step = s.conclude r t) := by
  have hadvance : ∀ t, Leaves s p r slope u { t with alpha := nextStep t.low t.high } →
      Sum.elim (Leaves s p r slope u) (fun step => step.message = .wolfe ∨
        ∃ t, Leaves s p r slope u t ∧ s.exhausted t = true ∧ step = s.conclude r t)
        (s.advance r t) := by
    intro t ht
    simp only [advance]
    split_ifs with hexhausted
    · exact .inr ⟨_, ht, hexhausted, rfl⟩
    · exact ht
  obtain ⟨-, b, -, halpha, -⟩ := hu
  have hvalue : p.value (r.along u.alpha) = .ok (number (φ b)) := halpha ▸ h.value b
  have hgradient : p.gradient (r.along u.alpha) = .ok (lift (γ b)) := halpha ▸ h.gradient b
  have hasks := h.replies_value p.quiet_oracle b
  have hasks' := h.replies_gradient p.quiet_oracle b
  rw [← halpha] at hasks hasks'
  refine .bind (replies_trialValue _ hasks) fun f hf => ?_
  subst hf
  apply Replies.ite
  · intro hdecrease
    refine .bind (replies_trialGradient _ hasks') fun g hg => ?_
    subst hg
    rw [hwolfe]
    refine .bind (Eval.replies_ofExcept rfl rfl) fun forward hforward => ?_
    subst hforward
    apply Replies.ite
    · exact fun _ => .pure (.inl rfl)
    · exact fun hsteep => .pure (hadvance _ (.lower ⟨rfl, hvalue, hgradient, hdecrease, hsteep⟩))
  · intro hrise
    have hend : upperEnd u.alpha = some u.alpha := by simp [upperEnd, halpha]
    rw [hend]
    exact .pure (hadvance _ (.upper ⟨_, hvalue, hrise⟩))

section Course
variable (hwolfe : s.wolfe = true) (h : r.Samples p.oracle φ γ) (ha : 0 < a)
include ha

theorem ordered_initial :
    (initial (number a) : State (Exact K) (Vector (Exact K) n)).Ordered :=
  ⟨0, a, rfl, rfl, le_rfl, ha, nofun⟩

include hwolfe h

/-- Before every trial that may be made the state is one that the trials before have left. -/
theorem visits_of_begins (hk : k ≤ s.maxIter.toNat)
    (hbegins : Begins s p r slope (number a) l k t) :
    Visits s p r slope (number a) l k t ∧ t.Ordered := by
  induction k generalizing t with
  | zero =>
    obtain ⟨l', hbegins⟩ := hbegins
    cases hbegins
    exact ⟨rfl, ordered_initial ha⟩
  | succ k ih =>
    obtain ⟨l', hbegins⟩ := hbegins
    obtain ⟨u, l₁, hu, hround⟩ := perform_upTo_succ_eq_inl.mp hbegins
    have hordered := (ih (Nat.le_of_succ_le hk) ⟨l₁, hu⟩).2
    obtain ⟨result, l₂, hrun, hresult⟩ :=
      (replies_attempt_leaves hwolfe h hordered).exists_answer l₁
    rw [Eval.perform, hrun] at hround
    cases hround
    exact ⟨⟨hk, u, ⟨l₁, hu⟩, hresult⟩, hresult.ordered hordered⟩

theorem Visits.ordered (hvisits : Visits s p r slope (number a) l k t) : t.Ordered := by
  cases k with
  | zero =>
    rw [hvisits]
    exact ordered_initial ha
  | succ k =>
    obtain ⟨hk, u, hu, hleaves⟩ := hvisits
    exact hleaves.ordered (visits_of_begins hwolfe h ha hk.le hu).2

/-- A trial of the search that is no Wolfe step narrows the bracket. -/
theorem Visits.narrowed (hu : Begins s p r slope (number a) l k u)
    (hvisits : Visits s p r slope (number a) l (k + 1) t) : Narrows u t := by
  obtain ⟨hk, u', hu', hleaves⟩ := hvisits
  obtain rfl := hu'.unique hu
  obtain ⟨hbefore, hordered⟩ := visits_of_begins hwolfe h ha hk.le hu
  refine ⟨hleaves.ends, hleaves.doubled, fun b hb => ?_⟩
  cases k with
  | zero =>
    rw [hbefore] at hb
    cases hb
  | succ k =>
    obtain ⟨-, v, -, hlast⟩ := hbefore
    exact hleaves.halved hordered hlast.next hb

/-- The brackets after a trial lie in the one before it, and the trial is outside of them. -/
theorem Visits.nested {j : ℕ} (hj : j < k) (hu : Begins s p r slope (number a) l j u)
    (hvisits : Visits s p r slope (number a) l k t) :
    t.bracket ⊂ u.bracket ∧ u.alpha ∉ t.bracket := by
  induction k generalizing t with
  | zero => exact absurd hj j.not_lt_zero
  | succ k ih =>
    obtain ⟨hk, v, hv, hleaves⟩ := hvisits
    obtain ⟨hbefore, hordered⟩ := visits_of_begins hwolfe h ha hk.le hv
    have hlast := hleaves.bracket_ssubset hordered
    rcases Nat.lt_succ_iff_lt_or_eq.mp hj with hj | rfl
    · obtain ⟨hsubset, hnot⟩ := ih hj hbefore
      exact ⟨hlast.trans hsubset, fun hmem => hnot (hlast.subset hmem)⟩
    · obtain rfl := hv.unique hu
      exact ⟨hlast, hleaves.trial_not_mem⟩

theorem Visits.keepsBracket (hvisits : Visits s p r slope (number a) l k t) :
    KeepsBracket s p r slope (number a) l k t := by
  have hordered := hvisits.ordered hwolfe h ha
  have hnested : ∀ j < k, ∀ u, Begins s p r slope (number a) l j u →
      t.bracket ⊂ u.bracket ∧ u.alpha ∉ t.bracket :=
    fun _ hj _ hu => hvisits.nested hwolfe h ha hj hu
  have hfresh : ¬ Tried s p r slope (number a) l k t.alpha := by
    rintro ⟨j, hj, u, hu, halpha⟩
    exact (hnested j hj u hu).2 (halpha ▸ hordered.trial_mem)
  suffices hends : (∀ b, t.high = some b → Tried s p r slope (number a) l k b ∧
      Rises s p r slope b) ∧ (t.low = 0 ∧ t.best = none ∨ Tried s p r slope (number a) l k t.low ∧
      ∃ y, t.best = some (t.low, y) ∧ Falls s p r slope t.low y) from
    ⟨hordered, hends.1, hends.2, fun j hj u hu => (hnested j hj u hu).1, hfresh⟩
  clear hfresh hnested hordered
  induction k generalizing t with
  | zero =>
    rw [hvisits]
    exact ⟨nofun, .inl ⟨rfl, rfl⟩⟩
  | succ k ih =>
    obtain ⟨hk, u, hu, hleaves⟩ := hvisits
    obtain ⟨hhigh, hlow⟩ := ih (visits_of_begins hwolfe h ha hk.le hu).1
    have hnow : Tried s p r slope (number a) l (k + 1) u.alpha := ⟨k, k.lt_succ_self, u, hu, rfl⟩
    cases hleaves with
    | upper rises =>
      constructor
      · rintro b ⟨⟩
        exact ⟨hnow, rises⟩
      · exact hlow.imp_right fun ⟨htried, hbest⟩ => ⟨htried.succ, hbest⟩
    | lower falls =>
      constructor
      · exact fun b hb => ⟨(hhigh b hb).1.succ, (hhigh b hb).2⟩
      · exact .inr ⟨hnow, _, rfl, falls⟩

/-- Without a Wolfe step the best step is returned if the lower end is positive. -/
theorem Visits.success_conclude (hvisits : Visits s p r slope (number a) l k t) :
    ((s.conclude r t).success = true ↔ 0 < t.low) ∧ ((s.conclude r t).success = true →
      t.best = some ((s.conclude r t).alpha, (s.conclude r t).reached)) := by
  rcases (hvisits.keepsBracket hwolfe h ha).low with
    ⟨hlow, hbest⟩ | ⟨⟨j, hj, u, hu, halpha⟩, y, hbest, -⟩
  · simp [conclude, hbest, hlow, Step.failed, Exact.lt_irrefl]
  · have hpos : 0 < t.low :=
      halpha ▸ (visits_of_begins hwolfe h ha (hj.le.trans hvisits.le_cap) hu).2.pos
    simpa [conclude, hbest, Step.accepted] using hpos

/-- Rounds that end the search do so with a Wolfe step or with a bracket that is used up. -/
theorem exists_rounds (slope : Exact K) (hk : k ≤ s.maxIter.toNat)
    (l : Ledger (Exact K) (Vector (Exact K) n)) :
    ∃ result l', (upTo (s.attempt p.oracle.recorded r slope) k (initial (number a))).perform l =
        (.ok result, l') ∧
      ∀ step, result = .inr step → step.message = .wolfe ∨
        ∃ k t, Visits s p r slope (number a) l k t ∧ s.exhausted t = true ∧
          step = s.conclude r t := by
  induction k with
  | zero => exact ⟨.inl (initial (number a)), l, rfl, nofun⟩
  | succ k ih =>
    obtain ⟨result, l₁, hrun, hended⟩ := ih (Nat.le_of_succ_le hk)
    rw [upTo_succ_last, Eval.perform_bind, hrun]
    cases result with
    | inr step => exact ⟨.inr step, l₁, rfl, hended⟩
    | inl u =>
      have hu : Begins s p r slope (number a) l k u := ⟨l₁, hrun⟩
      have hordered := (visits_of_begins hwolfe h ha (Nat.le_of_succ_le hk) hu).2
      obtain ⟨result, l₂, hround, hresult⟩ :=
        (replies_attempt_leaves hwolfe h hordered).exists_answer l₁
      refine ⟨result, l₂, hround, ?_⟩
      rintro step rfl
      exact hresult.imp_right fun ⟨t, ht, hend⟩ => ⟨k + 1, t, ⟨hk, u, hu, ht⟩, hend⟩

end Course

/-- Along a ray with finite answers the search always returns a step. Before every trial, and after
the last one, the bracket is as it should be; a trial narrows it; and without a Wolfe step what is
returned is the best step, provided that the lower end is positive. -/
theorem search_keeps_bracket (hwolfe : s.wolfe = true) (h : r.Samples p.oracle φ γ)
    (hdescent : Space.inner r.start.gradient r.direction < 0) (ha : 0 < a)
    {asked : Option (Exact K)} (hasked : asked.getD s.alpha0 = number a)
    (l : Ledger (Exact K) (Vector (Exact K) n)) :
    let slope := Space.inner r.start.gradient r.direction
    (∀ k ≤ s.maxIter.toNat, ∀ t, Begins s p r slope (number a) l k t →
      Visits s p r slope (number a) l k t) ∧
    (∀ k t, Visits s p r slope (number a) l k t → KeepsBracket s p r slope (number a) l k t) ∧
    (∀ k u t, Begins s p r slope (number a) l k u → Visits s p r slope (number a) l (k + 1) t →
      Narrows u t) ∧
    ∃ step l', (s.search p.oracle.recorded r asked).perform l = (.ok step, l') ∧
      (step.message = .wolfe ∨ ∃ k t, Visits s p r slope (number a) l k t ∧
        (k = s.maxIter.toNat ∨ s.exhausted t = true) ∧ step = s.conclude r t ∧
        (step.success = true ↔ 0 < t.low) ∧
        (step.success = true → t.best = some (step.alpha, step.reached))) := by
  intro slope
  refine ⟨fun k hk t ht => (visits_of_begins hwolfe h ha hk ht).1,
    fun k t ht => ht.keepsBracket hwolfe h ha, fun k u t hu ht => ht.narrowed hwolfe h ha hu, ?_⟩
  have hprepare := r.prepare_number hdescent ha hasked
  obtain ⟨result, l', hloop, hended⟩ :=
    exists_rounds (s := s) hwolfe h ha slope le_rfl l
  have hsearch : (s.search p.oracle.recorded r asked).perform l =
      (.ok (result.elim (s.conclude r) id), l') := by
    rw [search, hprepare, Eval.perform_bind, Eval.perform_ofExcept]
    dsimp only
    rw [Eval.perform_bind, hloop]
    cases result <;> rfl
  refine ⟨_, l', hsearch, ?_⟩
  cases result with
  | inl t =>
    have ht := (visits_of_begins hwolfe h ha le_rfl ⟨l', hloop⟩).1
    exact .inr ⟨_, t, ht, .inl rfl, rfl, ht.success_conclude hwolfe h ha⟩
  | inr step =>
    refine (hended step rfl).imp_right ?_
    rintro ⟨k, t, ht, hexhausted, rfl⟩
    exact ⟨k, t, ht, .inr hexhausted, rfl, ht.success_conclude hwolfe h ha⟩

/-- On `½ x²` two trials from the step `1 / 64` are too short, and the second one is returned. -/
theorem search_keeps_bracket_halfSquare :
    let s : Bisection (Exact ℚ) :=
      ⟨number (1 / 64), number (1 / 4), number (3 / 4), true, 2, 0, number 4⟩
    let p := halfSquare.objective.problem
    let r : Ray (Exact ℚ) (Vector (Exact ℚ) 1) :=
      ⟨⟨lift ![1], number (halfSquare.value ![1]), lift (halfSquare.gradient ![1])⟩, lift ![-1]⟩
    ∃ t, Begins s p r (Space.inner r.start.gradient r.direction) (number (1 / 64)) {} 1 t ∧
      t.low = number (1 / 64) ∧ t.high = none ∧
      KeepsBracket s p r (Space.inner r.start.gradient r.direction) (number (1 / 64)) {} 1 t ∧
      ∃ step l, (s.search p.oracle.recorded r none).perform {} = (.ok step, l) ∧
        step.success = true := by
  intro s p r
  have hdescent : Space.inner r.start.gradient r.direction < 0 := by decide +kernel
  have hasked : (none : Option (Exact ℚ)).getD s.alpha0 = number (1 / 64) := rfl
  obtain ⟨hvisits, hkeeps, -, step, l, hrun, -⟩ := search_keeps_bracket rfl
    (halfSquare.samples ![1] ![-1]) hdescent (by norm_num) hasked {}
  have hsuccess : ((s.search p.oracle.recorded r none).perform {}).1.toOption.map Step.success =
      some true := by
    decide +kernel
  rw [hrun] at hsuccess
  have hround : (((upTo (s.attempt p.oracle.recorded r (Space.inner r.start.gradient r.direction)) 1
      (initial (number (1 / 64)))).perform {}).1.toOption.bind Sum.getLeft?).map
        (fun t => (t.low, t.high)) = some (number (1 / 64), none) := by
    decide +kernel
  rcases hloop : (upTo (s.attempt p.oracle.recorded r (Space.inner r.start.gradient r.direction)) 1
    (initial (number (1 / 64)))).perform {} with ⟨e | t | step, l'⟩ <;> rw [hloop] at hround
  · cases hround
  · obtain ⟨hlow, hhigh⟩ := Prod.mk.inj (Option.some.inj hround)
    have ht := hvisits 1 (by decide) t ⟨l', hloop⟩
    exact ⟨t, ⟨l', hloop⟩, hlow, hhigh, hkeeps 1 t ht, step, l, hrun, Option.some.inj hsuccess⟩
  · cases hround

end Downhill.Bisection
