import Downhill.Proofs.LineSearch.Acceptable
import Downhill.Proofs.LineSearch.Contraction
import Downhill.Proofs.LineSearch.Halving
import Downhill.Proofs.LineSearch.MoreThuente.Parabola

/-! The search by doubling and halving on a parabola that bends upwards. The steps that meet both
conditions form a window whose upper end is more than twice its lower end, because `c1 < c2`. So
trials that are doubled until they are long enough, or halved until they are short enough, cannot
jump over it, and the search never comes to a bracket with two ends of its own. -/
namespace Downhill.Bisection
variable {K M : Type} [ExactField K] {n : ℕ} {s : Bisection (Exact K)}
  {p : Problem (Exact K) (Vector (Exact K) n) M} {r : Ray (Exact K) (Vector (Exact K) n)}
  {l : Ledger (Exact K) (Vector (Exact K) n)} {u : State (Exact K) (Vector (Exact K) n)}
  {c1 c2 f0 m κ lower upper a t : K} {j k : ℕ} {before : List (Request (Vector (Exact K) n))}

open Exact

/-- The shortest step on a parabola that is long enough for the curvature condition. -/
def shortest (c2 m κ : K) : K := (1 - c2) * |m| / ((2 : ℕ) * κ)

/-- The longest step on a parabola with sufficient decrease. -/
def longest (c1 m κ : K) : K := (1 - c1) * |m| / κ

section Window
variable (hm : m < 0) (hκ : 0 < κ)
include hm hκ

theorem decreases_parabola_iff (f0 : K) (hc1 : 0 < c1) (ht : 0 < t) :
    sufficientDecrease (number (f0 + m * t + κ * t * t)) (number f0) (number t) (number m)
      (number c1) = true ↔ t ≤ longest c1 m κ := by
  have hexcess : f0 + m * t + κ * t * t - (f0 + c1 * t * m) = t * (t * κ - (1 - c1) * -m) := by
    ring
  have hline : c1 * t * m < 0 := mul_neg_of_pos_of_neg (mul_pos hc1 ht) hm
  rw [sufficientDecrease_iff, number_mul, number_mul, number_add, number_lt, number_le, longest,
    abs_of_neg hm, le_div_iff₀ hκ]
  constructor
  · rintro ⟨-, hle⟩
    rw [← sub_nonpos, hexcess] at hle
    exact sub_nonpos.mp (nonpos_of_mul_nonpos_right hle ht)
  · intro hle
    have habove := mul_nonpos_of_nonneg_of_nonpos ht.le (sub_nonpos.mpr hle)
    rw [← hexcess, sub_nonpos] at habove
    exact ⟨by linarith, habove⟩

theorem curved_parabola_iff :
    number c2 * number m ≤ number (m + (κ + κ) * t) ↔ shortest c2 m κ ≤ t := by
  rw [number_mul, number_le, shortest, Nat.cast_ofNat, abs_of_neg hm, div_le_iff₀ (by positivity)]
  constructor <;> intro h <;> linarith

/-- No step is too short while twice the step is too long. -/
theorem two_mul_shortest_lt (hc : c1 < c2) : 2 * shortest c2 m κ < longest c1 m κ := by
  have hslope : 0 < |m| := abs_pos.mpr hm.ne
  have hhalf : 2 * shortest c2 m κ = (1 - c2) * |m| / κ := by
    rw [shortest, Nat.cast_ofNat]
    field_simp
  rw [hhalf, longest]
  gcongr

end Window

/-- What is asked for at a trial: the value, and the gradient unless the step is too long. -/
def questions (r : Ray (Exact K) (Vector (Exact K) n)) (upper t : K) :
    List (Request (Vector (Exact K) n)) :=
  .value (r.along (number t)) :: if t ≤ upper then [.gradient (r.along (number t))] else []

/-- What becomes of a trial of the state `u` at the step `t` of a parabola. -/
inductive Judges (s : Bisection (Exact K)) (p : Problem (Exact K) (Vector (Exact K) n) M)
    (r : Ray (Exact K) (Vector (Exact K) n)) (lower upper t : K)
    (u : State (Exact K) (Vector (Exact K) n)) :
    State (Exact K) (Vector (Exact K) n) ⊕ Step (Exact K) (Vector (Exact K) n) → Prop
  | long (long : upper < t) : Judges s p r lower upper t u
      (s.advance r ⟨number t, u.low, some (number t), u.best, u.values + 1, u.gradients⟩)
  | short {y : Iterate (Exact K) (Vector (Exact K) n)} (short : t < lower) :
      Judges s p r lower upper t u (s.advance r
        ⟨number t, number t, u.high, some (number t, y), u.values + 1, u.gradients + 1⟩)
  | taken {y : Iterate (Exact K) (Vector (Exact K) n)} (mem : t ∈ Set.Icc lower upper)
      (point : y.point = r.along (number t)) (faithful : p.oracle.Faithful y) :
      Judges s p r lower upper t u
        (.inr (.accepted (number t) y (u.values + 1) (u.gradients + 1) .wolfe))

/-- Every trial at a positive step has an answer, which depends on where the step lies to the window
from `lower` to `upper`. -/
def Sorts (s : Bisection (Exact K)) (p : Problem (Exact K) (Vector (Exact K) n) M)
    (r : Ray (Exact K) (Vector (Exact K) n)) (slope : Exact K) (lower upper : K) : Prop :=
  ∀ before t u, 0 < t → u.alpha = number t →
    Ensures (fun l => l.requests.toList = before) (s.attempt p.oracle.recorded r slope u)
      (Surely fun result l => Judges s p r lower upper t u result ∧
        l.requests.toList = before ++ questions r upper t)

theorem sorts_parabola (hs : Accepted s c1 c2) (hwolfe : s.wolfe = true)
    (hr : r.Parabolic p f0 m κ) (hm : m < 0) (hκ : 0 < κ) :
    Sorts s p r (number m) (shortest c2 m κ) (longest c1 m κ) := by
  intro before t u ht hu
  have hvalue := hr.value t ht.le
  obtain ⟨g, hgradient, hslope⟩ := hr.gradient t ht.le
  obtain ⟨g, -, rfl, -, -⟩ := exists_of_dot_eq hslope
  have hdecrease := decreases_parabola_iff hm hκ f0 hs.c1_pos ht
  simp only [attempt, hu, hr.start_value, hs.c1_eq, hs.c2_eq]
  refine .bind (surely_trialValue p.quiet_oracle hvalue _) (fun f => ?_) fun _ _ h => h.elim
  apply Ensures.of_fact
  rintro rfl
  apply Ensures.ite
  · intro hyes
    have hle := hdecrease.mp hyes
    refine .bind (surely_trialGradient p.quiet_oracle hgradient _) (fun v => ?_)
      fun _ _ h => h.elim
    apply Ensures.of_fact
    rintro rfl
    have hasked : ∀ l : Ledger (Exact K) (Vector (Exact K) n), l.requests.toList =
        (before ++ [.value (r.along (number t))]) ++ [.gradient (r.along (number t))] →
        l.requests.toList = before ++ questions r (longest c1 m κ) t := by
      intro l hl
      simpa [questions, hle] using hl
    have hforward : (Eval.ofExcept (Space.dot? (lift g) r.direction) :
        Eval (Exact K) (Vector (Exact K) n) (Exact K)) = pure (number (m + (κ + κ) * t)) :=
      congrArg (fun d => Eval.ofExcept (.ok d)) hslope
    rw [hwolfe, if_neg (by decide), hforward, pure_bind]
    apply Ensures.ite
    · intro hcurved
      have hmem : t ∈ Set.Icc (shortest c2 m κ) (longest c1 m κ) :=
        ⟨(curved_parabola_iff hm hκ).mp hcurved, hle⟩
      exact .pure fun l hl => ⟨.taken hmem rfl ⟨hvalue, hgradient⟩, hasked l hl⟩
    · intro hsteep
      have hshort : t < shortest c2 m κ := not_le.mp fun hlong =>
        hsteep ((curved_parabola_iff hm hκ).mpr hlong)
      exact .pure fun l hl => ⟨.short hshort, hasked l hl⟩
  · intro hno
    have hlong : longest c1 m κ < t := not_le.mp fun hle => hno (hdecrease.mpr hle)
    refine .pure fun l hl => ⟨?_, ?_⟩
    · exact .long hlong
    · simpa [questions, hlong.not_ge] using hl

/-- The trial of index `j`: short first steps are doubled, the others halved. -/
def trial (lower a : K) (j : ℕ) : K :=
  if a < lower then a * (2 : ℕ) ^ j else a / (2 : ℕ) ^ j

/-- The trial of index `j` is still on the side of the window where the first one is. -/
def Outside (lower upper a : K) (j : ℕ) : Prop :=
  if a < lower then trial lower a j < lower else upper < trial lower a j

/-- Before the trial of index `j` the bracket lacks an end of its own: no trial was too long, or
none was too short. -/
structure OneSided (lower a : K) (j : ℕ) (t : State (Exact K) (Vector (Exact K) n)) : Prop where
  alpha : t.alpha = number (trial lower a j)
  open_end : if a < lower then t.high = none else t.low = 0
  values : t.values = j
  gradients : t.gradients = if a < lower then j else 0

theorem OneSided.missing (h : OneSided lower a j u) : u.low = 0 ∨ u.high = none := by
  have hopen := h.open_end
  split_ifs at hopen
  · exact .inr hopen
  · exact .inl hopen

theorem oneSided_initial (lower : K) :
    OneSided lower a 0 (initial (number a) : State (Exact K) (Vector (Exact K) n)) := by
  constructor <;> simp [initial, trial]

theorem trial_succ_of_lt (h : a < lower) (j : ℕ) :
    trial lower a (j + 1) = 2.0 * trial lower a j := by
  simp only [trial, if_pos h, pow_succ]
  norm_num
  ring

theorem trial_succ_of_not_lt (h : ¬ a < lower) (j : ℕ) :
    trial lower a (j + 1) = 0.5 * trial lower a j := by
  simp only [trial, if_neg h, pow_succ, ← div_div]
  norm_num
  ring

theorem trial_pos (ha : 0 < a) (j : ℕ) : 0 < trial lower a j := by
  unfold trial
  split_ifs <;> positivity

/-- The step is in the range of the search. -/
def InRange (s : Bisection (Exact K)) (t : K) : Prop :=
  s.alphaMin ≤ number t ∧ number t ≤ s.alphaMax

/-- A search whose next trial is in range goes on with it. -/
theorem advance_of_inRange (hnext : nextStep u.low u.high = number t) (ht : InRange s t)
    (hwidth : ∀ h, u.high = some h → ¬ h - u.low < s.alphaMin) :
    s.advance r u = .inl { u with alpha := number t } := by
  have hlow : ¬ number t < s.alphaMin := fun hlt =>
    Exact.lt_irrefl _ (Exact.lt_of_le_of_lt ht.1 hlt)
  have hhigh : ¬ s.alphaMax < number t := fun hlt =>
    Exact.lt_irrefl _ (Exact.lt_of_le_of_lt ht.2 hlt)
  have hopen : (u.high.any fun high => high - u.low < s.alphaMin) = false := by
    cases hu : u.high with
    | none => rfl
    | some h => exact decide_eq_false (hwidth h hu)
  simp [advance, exhausted, hnext, hlow, hhigh, hopen]

/-- A trial outside of the window leads to the next one. -/
theorem Judges.next
    {result : State (Exact K) (Vector (Exact K) n) ⊕ Step (Exact K) (Vector (Exact K) n)}
    (hwindow : lower < upper) (hu : OneSided lower a j u) (hout : Outside lower upper a j)
    (hrange : InRange s (trial lower a j)) (hrange' : InRange s (trial lower a (j + 1)))
    (h : Judges s p r lower upper (trial lower a j) u result) :
    ∃ v, result = .inl v ∧ OneSided lower a (j + 1) v := by
  have hopen := hu.open_end
  have hcount := hu.gradients
  unfold Outside at hout
  by_cases hshort : a < lower
  · rw [if_pos hshort] at hopen hout hcount
    cases h with
    | long long => exact absurd (hwindow.trans long) hout.not_gt
    | taken mem => exact absurd mem.1 hout.not_ge
    | short short =>
      refine ⟨_, advance_of_inRange ?_ hrange' ?_, rfl, ?_, ?_, ?_⟩
      · simp [hopen, nextStep, trial_succ_of_lt hshort]
      · simp [hopen]
      · simpa [hshort] using hopen
      · simp [hu.values]
      · simp [hcount, hshort]
  · rw [if_neg hshort] at hopen hout hcount
    cases h with
    | short short => exact absurd (short.trans hwindow) hout.not_gt
    | taken mem => exact absurd mem.2 hout.not_ge
    | long long =>
      refine ⟨_, advance_of_inRange ?_ hrange' ?_, rfl, ?_, ?_, ?_⟩
      · simp [hopen, nextStep, trial_succ_of_not_lt hshort]
      · rintro h ⟨⟩ hlt
        rw [hopen, zero_eq, number_sub, sub_zero] at hlt
        exact Exact.lt_irrefl _ (Exact.lt_of_le_of_lt hrange.1 hlt)
      · simpa [hshort] using hopen
      · simp [hu.values]
      · simp [hcount, hshort]

/-- The questions of the first `j` trials. -/
def trialQuestions (r : Ray (Exact K) (Vector (Exact K) n)) (lower upper a : K) (j : ℕ) :
    List (Request (Vector (Exact K) n)) :=
  (List.range j).flatMap fun i => questions r upper (trial lower a i)

theorem trialQuestions_succ (lower upper : K) (j : ℕ) : trialQuestions r lower upper a (j + 1) =
    trialQuestions r lower upper a j ++ questions r upper (trial lower a j) := by
  simp [trialQuestions, List.range_succ]

/-- The search is about to make the trial of index `j`, and it has made those before. -/
def Approaches (r : Ray (Exact K) (Vector (Exact K) n))
    (before : List (Request (Vector (Exact K) n))) (lower upper a : K) (j : ℕ)
    (u : State (Exact K) (Vector (Exact K) n)) (l : Ledger (Exact K) (Vector (Exact K) n)) : Prop :=
  OneSided lower a j u ∧ l.requests.toList = before ++ trialQuestions r lower upper a j

/-- The search ends with the trial of index `k`, as a step that meets both conditions. -/
def Arrives (p : Problem (Exact K) (Vector (Exact K) n) M) (r : Ray (Exact K) (Vector (Exact K) n))
    (before : List (Request (Vector (Exact K) n))) (lower upper a : K) (k : ℕ)
    (step : Step (Exact K) (Vector (Exact K) n)) (l : Ledger (Exact K) (Vector (Exact K) n)) :
    Prop :=
  (∃ y, step = .accepted (number (trial lower a k)) y (k + 1) (if a < lower then k + 1 else 1)
      .wolfe ∧ y.point = r.along (number (trial lower a k)) ∧ p.oracle.Faithful y) ∧
    l.requests.toList = before ++ trialQuestions r lower upper a (k + 1)

section Run
variable {slope : Exact K} (hsorts : Sorts s p r slope lower upper)
include hsorts

theorem ensures_attempt_outside (ha : 0 < a) (hwindow : lower < upper)
    (hout : Outside lower upper a j) (hrange : InRange s (trial lower a j))
    (hrange' : InRange s (trial lower a (j + 1))) :
    Ensures (Approaches r before lower upper a j u) (s.attempt p.oracle.recorded r slope u)
      (Rounded (Approaches r before lower upper a (j + 1)) (fun _ _ => False)
        fun _ _ => False) := by
  apply Ensures.of_fact
  intro hu
  have htrial := hsorts (before ++ trialQuestions r lower upper a j) _ u (trial_pos ha j) hu.alpha
  refine htrial.mono (fun _ h => h) fun result l h => ?_
  cases result with
  | error e => exact h
  | ok result =>
    obtain ⟨hjudges, hl⟩ := h
    obtain ⟨v, rfl, hv⟩ := hjudges.next hwindow hu hout hrange hrange'
    refine ⟨hv, ?_⟩
    rw [hl, trialQuestions_succ, List.append_assoc]

theorem ensures_attempt_inside (ha : 0 < a) (hmem : trial lower a k ∈ Set.Icc lower upper) :
    Ensures (Approaches r before lower upper a k u) (s.attempt p.oracle.recorded r slope u)
      (Rounded (fun _ _ => False) (Arrives p r before lower upper a k) fun _ _ => False) := by
  apply Ensures.of_fact
  intro hu
  have htrial := hsorts (before ++ trialQuestions r lower upper a k) _ u (trial_pos ha k) hu.alpha
  refine htrial.mono (fun _ h => h) fun result l h => ?_
  cases result with
  | error e => exact h
  | ok result =>
    obtain ⟨hjudges, hl⟩ := h
    cases hjudges with
    | long long => exact absurd hmem.2 long.not_ge
    | short short => exact absurd hmem.1 short.not_ge
    | taken mem point faithful =>
      refine ⟨⟨_, ?_, point, faithful⟩, ?_⟩
      · rw [hu.values, hu.gradients, ite_add, zero_add]
      · rw [hl, trialQuestions_succ, List.append_assoc]

section Rounds
variable (ha : 0 < a) (hwindow : lower < upper) (hout : ∀ j < k, Outside lower upper a j)
  (hrange : ∀ j ≤ k, InRange s (trial lower a j))
include ha hwindow hout hrange

/-- The trials up to the one in the window are all made, and none of them finds a bracket with two
ends of its own. -/
theorem exists_begins (hj : j ≤ k) (l : Ledger (Exact K) (Vector (Exact K) n)) :
    ∃ t, Begins s p r slope (number a) l j t ∧ OneSided lower a j t := by
  have hround : ∀ i < j, ∀ u, Ensures (Approaches r l.requests.toList lower upper a i u)
      (s.attempt p.oracle.recorded r slope u)
      (Rounded (Approaches r l.requests.toList lower upper a (i + 1)) (fun _ _ => False)
        fun _ _ => False) := fun i hi u =>
    ensures_attempt_outside hsorts ha hwindow (hout i (hi.trans_le hj)) (hrange i (hi.le.trans hj))
      (hrange (i + 1) (hi.trans_le hj))
  have hrounds := Ensures.upTo_counted hround (initial (number a)) l
    ⟨oneSided_initial lower, by simp [trialQuestions]⟩
  rcases hrun : (upTo (s.attempt p.oracle.recorded r slope) j (initial (number a))).run.run l with
    ⟨e | t | step, l'⟩ <;> rw [hrun] at hrounds
  · exact hrounds.elim
  · exact ⟨t, ⟨l', hrun⟩, hrounds.1⟩
  · exact hrounds.elim

/-- The search ends with the first trial in the window, if its cap allows that many trials. -/
theorem surely_search_arrives (hmem : trial lower a k ∈ Set.Icc lower upper)
    {asked : Option (Exact K)} (hprepare : r.prepare s.alpha0 asked = .ok (slope, number a))
    (hcap : k < s.maxIter.toNat) :
    Ensures (fun l => l.requests.toList = before) (s.search p.oracle.recorded r asked)
      (Surely (Arrives p r before lower upper a k)) := by
  apply surely_prepared hprepare
  apply surely_rounds (I := fun j u l => j ≤ k ∧ Approaches r before lower upper a j u l)
  · intro j _ u
    apply Ensures.of_fact
    intro hjk
    rcases hjk.lt_or_eq with hlt | rfl
    · refine (ensures_attempt_outside hsorts ha hwindow (hout j hlt) (hrange j hjk)
        (hrange (j + 1) hlt)).mono (fun _ h => h) fun result l h => ?_
      rcases result with e | v | step
      · exact h.elim
      · exact ⟨hlt, h⟩
      · exact h.elim
    · refine (ensures_attempt_inside hsorts ha hmem).mono (fun _ h => h) fun result l h => ?_
      rcases result with e | v | step
      · exact h.elim
      · exact h.elim
      · exact h
  · intro l hl
    exact ⟨k.zero_le, oneSided_initial lower, by simp [trialQuestions, hl]⟩
  · intro u
    apply Ensures.of_fact
    intro hle
    exact absurd hcap hle.not_gt
  · exact fun _ => rfl

end Rounds

end Run

/-- The first trial that is not outside any more lies in the window: a double or a half cannot jump
over it. -/
theorem trial_mem_of_first (hwindow : 2 * lower < upper) (hlower : 0 < lower)
    (hout : ∀ j < k, Outside lower upper a j) (hk : ¬ Outside lower upper a k) :
    trial lower a k ∈ Set.Icc lower upper := by
  have hupper : 0 < upper := by linarith
  unfold Outside at hout hk
  by_cases hshort : a < lower
  · simp only [if_pos hshort, not_lt] at hout hk
    refine ⟨hk, ?_⟩
    cases k with
    | zero => exact absurd hk (by simpa [trial] using hshort)
    | succ j =>
      have hlast := hout j j.lt_succ_self
      rw [trial_succ_of_lt hshort]
      norm_num
      linarith
  · simp only [if_neg hshort, not_lt] at hout hk
    refine ⟨?_, hk⟩
    cases k with
    | zero => simpa [trial] using hshort
    | succ j =>
      have hlast := hout j j.lt_succ_self
      rw [trial_succ_of_not_lt hshort]
      norm_num
      linarith

section Logarithm
variable {x : ℝ}

theorem lt_ceil_logb_iff (hx : 0 < x) : j < ⌈Real.logb 2 x⌉₊ ↔ 2 ^ j < x := by
  rw [Nat.lt_ceil, Real.lt_logb_iff_rpow_lt one_lt_two hx, Real.rpow_natCast]

/-- The number of doublings, or halvings, that lead to the window. -/
theorem outside_iff {lower upper a : ℝ} (ha : 0 < a) (hlower : 0 < lower) (hupper : 0 < upper)
    (j : ℕ) : Outside lower upper a j ↔
      j < if a < lower then ⌈Real.logb 2 (lower / a)⌉₊ else ⌈Real.logb 2 (a / upper)⌉₊ := by
  unfold Outside trial
  rw [Nat.cast_ofNat]
  split_ifs
  · rw [lt_ceil_logb_iff (div_pos hlower ha), lt_div_iff₀ ha, mul_comm]
  · rw [lt_ceil_logb_iff (div_pos ha hupper), lt_div_iff₀ hupper, lt_div_iff₀ (by positivity),
      mul_comm]

end Logarithm

/-- On a parabola that bends upwards the search doubles its steps, or halves them, until one lies in
the window of the steps that meet both conditions, and it returns the first one that does. A first
step `a` that is too short is doubled `⌈log₂ (lower / a)⌉` times, one that is too long halved
`⌈log₂ (a / upper)⌉` times, provided that the cap allows these trials and the bounds their steps. No
bracket on the way has two ends of its own: either no trial was too short, and the lower end is
still the start, or no trial was too long, and there is no upper end. -/
theorem search_enters_window {s : Bisection (Exact ℝ)}
    {p : Problem (Exact ℝ) (Vector (Exact ℝ) n) M} {r : Ray (Exact ℝ) (Vector (Exact ℝ) n)}
    {c1 c2 f0 m κ a : ℝ} {asked : Option (Exact ℝ)} (hs : s.check = .ok ())
    (hwolfe : s.wolfe = true) (hc1 : s.c1 = number c1) (hc2 : s.c2 = number c2)
    (hr : r.Parabolic p f0 m κ) (hm : m < 0) (hκ : 0 < κ) (ha : 0 < a)
    (hasked : asked.getD s.alpha0 = number a) (l : Ledger (Exact ℝ) (Vector (Exact ℝ) n)) :
    let lower := (1 - c2) * |m| / (2 * κ)
    let upper := (1 - c1) * |m| / κ
    let step := fun j : ℕ => if a < lower then a * 2 ^ j else a / 2 ^ j
    let k := if a < lower then ⌈Real.logb 2 (lower / a)⌉₊ else ⌈Real.logb 2 (a / upper)⌉₊
    1 + (k : ℤ) ≤ s.maxIter →
    (∀ j ≤ k, s.alphaMin ≤ number (step j) ∧ number (step j) ≤ s.alphaMax) →
    (step k ∈ Set.Icc lower upper ∧ ∀ j < k, step j ∉ Set.Icc lower upper) ∧
    (∀ j ≤ k, ∃ t, Begins s p r (number m) (number a) l j t ∧ t.alpha = number (step j) ∧
      (t.low = 0 ∨ t.high = none)) ∧
    ∃ y l', (s.search p.oracle.recorded r asked).perform l = (.ok (.accepted (number (step k)) y
        (k + 1) (if a < lower then k + 1 else 1) .wolfe), l') ∧
      y.point = r.along (number (step k)) ∧ p.oracle.Faithful y ∧
      l'.requests.toList = l.requests.toList ++
        (List.range (k + 1)).flatMap fun j => questions r upper (step j) := by
  intro lower upper step k hcap hrange
  obtain ⟨c1', c2', hacc⟩ := exists_accepted hs
  obtain rfl : c1 = c1' := number.inj (hc1.symm.trans hacc.c1_eq)
  obtain rfl : c2 = c2' := number.inj (hc2.symm.trans hacc.c2_eq)
  have hslope : 0 < |m| := abs_pos.mpr hm.ne
  have hlower : 0 < lower := div_pos (mul_pos (sub_pos.mpr hacc.c2_lt) hslope) (by positivity)
  have hwindow : 2 * lower < upper := two_mul_shortest_lt hm hκ hacc.c1_lt
  have hupper : 0 < upper := by linarith
  have hlt : lower < upper := by linarith
  have hout : ∀ j < k, Outside lower upper a j := fun j => (outside_iff ha hlower hupper j).mpr
  have hmem : trial lower a k ∈ Set.Icc lower upper :=
    trial_mem_of_first hwindow hlower hout fun h =>
      (Nat.lt_irrefl k) ((outside_iff ha hlower hupper k).mp h)
  have hsorts := sorts_parabola hacc hwolfe hr hm hκ
  have hinner : Space.inner r.start.gradient r.direction = number m := hr.start_slope
  have hprepare := r.prepare_number (hinner ▸ number_lt.mpr hm) ha hasked
  rw [hinner] at hprepare
  refine ⟨⟨hmem, fun j hj hj' => ?_⟩, fun j hj => ?_, ?_⟩
  · have hside := hout j hj
    unfold Outside at hside
    split_ifs at hside
    · exact hside.not_ge hj'.1
    · exact hside.not_ge hj'.2
  · obtain ⟨t, hbegins, hside⟩ := exists_begins hsorts ha hlt hout hrange hj l
    exact ⟨t, hbegins, hside.alpha, hside.missing⟩
  · have hsearch := surely_search_arrives hsorts ha hlt hout hrange hmem hprepare
      (by omega : k < s.maxIter.toNat) l rfl
    rcases hrun : (s.search p.oracle.recorded r asked).run.run l with ⟨e | step, l'⟩ <;>
      rw [hrun] at hsearch
    · exact hsearch.elim
    · obtain ⟨⟨y, rfl, hpoint, hfaithful⟩, hrequests⟩ := hsearch
      exact ⟨y, l', hrun, hpoint, hfaithful, hrequests⟩

/-- On `1 / 2 - 4 t + 8 t²` the window is from `1 / 8` to `3 / 8`, and the step `1 / 32` is doubled
twice. -/
theorem search_enters_window_parabola :
    let s : Bisection (Exact ℝ) := ⟨1, number (1 / 4), number (1 / 2), true, 3, 0, number 1⟩
    let p := LineSearch.parabola.objective.problem
    let r : Ray (Exact ℝ) (Vector (Exact ℝ) 1) :=
      ⟨⟨lift ![-1], number (1 / 2), lift ![-1]⟩, lift ![4]⟩
    ∃ y l, (s.search p.oracle.recorded r (some (number (1 / 32)))).perform {} =
        (.ok (.accepted (number (1 / 8)) y 3 3 .wolfe), l) ∧
      y.point = r.along (number (1 / 8)) ∧
      ∀ j ≤ 2, ∃ t, Begins s p r (number (-4)) (number (1 / 32)) {} j t ∧
        t.alpha = number (1 / 32 * 2 ^ j) ∧ (t.low = 0 ∨ t.high = none) := by
  intro s p r
  have hcheck : s.check = .ok () := by
    refine bind_eq_ok_iff.mpr ⟨(), checkWolfe_eq_ok_iff.mpr ⟨⟨?_, ?_⟩, ?_, ?_⟩, ?_⟩
    · exact number_lt.mpr (by norm_num)
    · exact number_lt.mpr (by norm_num)
    · exact number_lt.mpr (by norm_num)
    · exact number_lt.mpr (by norm_num)
    · simp [s, pure, Except.pure]
  have hsmooth := LineSearch.smooth_parabola
  have hr : r.Parabolic p (1 / 2) (-4) 8 := by
    refine ⟨fun t ht => ?_, fun t ht => ?_, rfl, ?_⟩
    · refine (hsmooth.value t ht).trans ?_
      congr 2
      ring
    · obtain ⟨g, hg, hslope⟩ := hsmooth.gradient t ht
      refine ⟨g, hg, hslope.trans ?_⟩
      congr 1
      ring
    · refine hsmooth.start_slope.trans ?_
      congr 1
      ring
  have hlower : (1 - 1 / 2 : ℝ) * |(-4)| / (2 * 8) = 1 / 8 := by norm_num
  have hshort : (1 / 32 : ℝ) < 1 / 8 := by norm_num
  have hlog : ⌈Real.logb 2 (1 / 8 / (1 / 32 : ℝ))⌉₊ = 2 := by
    have hpow : (1 / 8 / (1 / 32) : ℝ) = 2 ^ 2 := by norm_num
    rw [hpow, Real.logb_pow, Real.logb_self_eq_one one_lt_two, mul_one, Nat.ceil_natCast]
  have hasked : (some (number (1 / 32)) : Option (Exact ℝ)).getD s.alpha0 = number (1 / 32) := rfl
  have hpos : (0 : ℝ) < 1 / 32 := by norm_num
  have h := search_enters_window hcheck rfl rfl rfl hr (by norm_num) (by norm_num) hpos hasked {}
  simp only [hlower, hshort, if_true, hlog] at h
  have hrange : ∀ j ≤ 2, s.alphaMin ≤ number (1 / 32 * 2 ^ j) ∧
      number (1 / 32 * 2 ^ j) ≤ s.alphaMax := by
    intro j hj
    constructor
    · exact number_le.mpr (by positivity)
    · apply number_le.mpr
      interval_cases j <;> norm_num
  obtain ⟨-, hbegins, y, l, hrun, hpoint, -⟩ := h (by decide) hrange
  have hlast : (1 / 32 * 2 ^ 2 : ℝ) = 1 / 8 := by norm_num
  rw [hlast] at hrun hpoint
  exact ⟨y, l, hrun, hpoint, hbegins⟩

end Downhill.Bisection
