import Downhill.Proofs.LineSearch.SafeStep
import Downhill.Proofs.Problem.QuadraticDifference

/-! Backtracking, trial by trial. Along a ray on which the problem has finite answers, the search
with a fixed contraction asks for the values at the steps of a geometric sequence, in this order,
and ends with the first one that decreases the value sufficiently or with the last one that it may
try. Below a parabola both backtracking searches have a step of guaranteed length: a rejected step
is long, and the next one is not much shorter. -/
namespace Downhill
variable {K M : Type} [ExactField K] {n : ℕ}

open Exact

section Questions
variable {o : Oracle (Exact K) (Vector (Exact K) n) M} (ho : o.Quiet) {x : Vector (Exact K) n}
  {asked : List (Request (Vector (Exact K) n))}
include ho

omit [ExactField K] in
theorem surely_value {f : Exact K} (h : o.valueAt x = .ok f) :
    Ensures (fun l => l.requests.toList = asked) (o.recorded.value x)
      (Surely fun a l => a = f ∧ l.requests.toList = asked ++ [.value x]) := by
  intro l hl
  obtain ⟨hanswer, hrequests⟩ := ho.perform_value x l
  have hvalue : ((o.recorded.value x).run.run l).1 = .ok f := hanswer.trans h
  rw [hvalue]
  exact ⟨rfl, (congrArg Array.toList hrequests).trans (by simp [hl])⟩

omit [ExactField K] in
theorem surely_gradient {g : Vector (Exact K) n} (h : o.gradientAt x = .ok g) :
    Ensures (fun l => l.requests.toList = asked) (o.recorded.gradient x)
      (Surely fun v l => v = g ∧ l.requests.toList = asked ++ [.gradient x]) := by
  intro l hl
  obtain ⟨hanswer, hrequests⟩ := ho.perform_gradient x l
  have hgradient : ((o.recorded.gradient x).run.run l).1 = .ok g := hanswer.trans h
  rw [hgradient]
  exact ⟨rfl, (congrArg Array.toList hrequests).trans (by simp [hl])⟩

/-- A trial at a point where the value is a number. -/
theorem surely_trialValue {f : K} (h : o.valueAt x = .ok (number f)) (alpha : Exact K) :
    Ensures (fun l => l.requests.toList = asked) (trialValue o.recorded x alpha)
      (Surely fun a l => a = number f ∧ l.requests.toList = asked ++ [.value x]) := by
  refine Surely.bind (surely_value ho h) fun a => .of_fact fun ha => ?_
  subst ha
  exact fun l hl => ⟨rfl, hl⟩

theorem surely_trialGradient {g : Fin n → K} (h : o.gradientAt x = .ok (lift g))
    (alpha : Exact K) :
    Ensures (fun l => l.requests.toList = asked) (trialGradient o.recorded x alpha)
      (Surely fun v l => v = lift g ∧ l.requests.toList = asked ++ [.gradient x]) := by
  refine Surely.bind (surely_gradient ho h) fun v => .of_fact fun hv => ?_
  subst hv
  have hfinite : checkArray (.trial "gradient" alpha) (Space.finite (lift g)) =
      (.ok () : Except (Fault (Exact K)) Unit) := if_pos (allFinite_lift g)
  rw [hfinite]
  exact fun l hl => ⟨rfl, hl⟩

end Questions

/-- Along a ray an oracle has the values `φ` and the gradients `γ`, all of them finite. -/
structure Ray.Samples (r : Ray (Exact K) (Vector (Exact K) n))
    (o : Oracle (Exact K) (Vector (Exact K) n) M) (φ : K → K) (γ : K → Fin n → K) : Prop where
  value : ∀ t, o.valueAt (r.along (number t)) = .ok (number (φ t))
  gradient : ∀ t, o.gradientAt (r.along (number t)) = .ok (lift (γ t))

namespace Ray.Samples
variable {r : Ray (Exact K) (Vector (Exact K) n)} {o : Oracle (Exact K) (Vector (Exact K) n) M}
  {φ : K → K} {γ : K → Fin n → K} {asked : List (Request (Vector (Exact K) n))}

theorem replies_value (h : r.Samples o φ γ) (ho : o.Quiet) (t : K) :
    Replies (o.recorded.value (r.along (number t))) fun f => f = number (φ t) :=
  fun l _ => Surely.imp (surely_value ho (h.value t)) (fun _ _ hf => hf.1) l rfl

theorem replies_gradient (h : r.Samples o φ γ) (ho : o.Quiet) (t : K) :
    Replies (o.recorded.gradient (r.along (number t))) fun g => g = lift (γ t) :=
  fun l _ => Surely.imp (surely_gradient ho (h.gradient t)) (fun _ _ hg => hg.1) l rfl

/-- A trial that is taken if the value has decreased sufficiently, and else goes on with `next`. -/
theorem ensures_armijoTrial {σ : Type} (h : r.Samples o φ γ) (ho : o.Quiet) {t : K}
    {slope c1 : Exact K} {trials : ℕ}
    {I : σ → Ledger (Exact K) (Vector (Exact K) n) → Prop}
    {R : Step (Exact K) (Vector (Exact K) n) → Ledger (Exact K) (Vector (Exact K) n) → Prop}
    {E : Fault (Exact K) → Ledger (Exact K) (Vector (Exact K) n) → Prop}
    {next : Exact K →
      Eval (Exact K) (Vector (Exact K) n) (σ ⊕ Step (Exact K) (Vector (Exact K) n))}
    (htaken : sufficientDecrease (number (φ t)) r.start.value (number t) slope c1 = true →
      ∀ l, l.requests.toList =
        asked ++ [.value (r.along (number t)), .gradient (r.along (number t))] →
      R (.accepted (number t) ⟨r.along (number t), number (φ t), lift (γ t)⟩ (trials + 1) 1 .armijo)
        l)
    (hnext : ¬ sufficientDecrease (number (φ t)) r.start.value (number t) slope c1 = true →
      Ensures (fun l => l.requests.toList = asked ++ [.value (r.along (number t))])
        (next (number (φ t))) (Rounded I R E)) :
    Ensures (fun l => l.requests.toList = asked)
      (do
        let f ← trialValue o.recorded (r.along (number t)) (number t)
        if sufficientDecrease f r.start.value (number t) slope c1 then
          let g ← trialGradient o.recorded (r.along (number t)) (number t)
          return .inr (.accepted (number t) ⟨r.along (number t), f, g⟩ (trials + 1) 1 .armijo)
        else next f)
      (Rounded I R E) := by
  refine Surely.bind (surely_trialValue ho (h.value t) _) fun f => .of_fact fun hf => ?_
  subst hf
  apply Ensures.ite
  · intro hdecrease
    refine Surely.bind (surely_trialGradient ho (h.gradient t) _) fun g => .of_fact fun hg => ?_
    subst hg
    exact .pure fun l hl => htaken hdecrease l (by simpa using hl)
  · exact hnext

end Ray.Samples

/-- A quadratic function has finite answers along every line. -/
theorem ConvexQuadratic.samples (q : ConvexQuadratic K n) (x d : Fin n → K) :
    Ray.Samples ⟨⟨lift x, number (q.value x), lift (q.gradient x)⟩, lift d⟩
      q.objective.problem.oracle (fun t => q.value (x + t • d))
      fun t => q.gradient (x + t • d) where
  value t := by
    change Except.ok (q.objective.value _) = _
    simp [Ray.along]
  gradient t := by
    change Except.ok (q.objective.gradient _) = _
    simp [Ray.along]

/-- The function `½ x²` of one rational variable. -/
def halfSquare : ConvexQuadratic ℚ 1 where
  matrix := 1
  linear := 0
  symm := Matrix.isSymm_one
  pos v hv := by
    rw [Matrix.one_mulVec]
    exact dotProduct_self_pos hv

theorem value_halfSquare (t : ℚ) : halfSquare.value (![1] + t • ![-1]) = 1 / 2 * (1 - t) ^ 2 := by
  simp [ConvexQuadratic.value, halfSquare]
  ring

section Rounds
variable {V σ β : Type} {P : Ledger (Exact K) V → Prop} {Q : β → Ledger (Exact K) V → Prop}

/-- What follows the preparations of a search, if these succeed. -/
theorem surely_prepared {r : Ray (Exact K) (Vector (Exact K) n)} {default slope alpha : Exact K}
    {asked : Option (Exact K)} {next : Exact K × Exact K → Eval (Exact K) V β}
    (hprepare : r.prepare default asked = .ok (slope, alpha))
    (h : Ensures P (next (slope, alpha)) (Surely Q)) :
    Ensures P (Eval.ofExcept (r.prepare default asked) >>= next) (Surely Q) := by
  rw [hprepare]
  exact h

omit [ExactField K] in
/-- A capped loop whose rounds never fail, with an invariant that counts them. -/
theorem surely_rounds {I : ℕ → σ → Ledger (Exact K) V → Prop} {cap : ℕ}
    {attempt : σ → Eval (Exact K) V (σ ⊕ β)} {next : σ ⊕ β → Eval (Exact K) V β} {t : σ}
    (hround : ∀ k < cap, ∀ t, Ensures (I k t) (attempt t) (Rounded (I (k + 1)) Q fun _ _ => False))
    (hstart : ∀ l, P l → I 0 t l) (hcap : ∀ t, Ensures (I cap t) (next (.inl t)) (Surely Q))
    (hresult : ∀ b, next (.inr b) = pure b) :
    Ensures P (upTo attempt cap t >>= next) (Surely Q) := by
  have hloop := Ensures.upTo_counted hround t
  refine Ensures.bind (hloop.mono hstart fun _ _ h => h) (fun u => ?_) fun _ _ h => h
  cases u with
  | inl t => exact hcap t
  | inr b =>
    rw [hresult]
    exact .pure fun l hl => hl

end Rounds

namespace Backtracking
variable {s : Backtracking (Exact K)} {r : Ray (Exact K) (Vector (Exact K) n)}
  {o : Oracle (Exact K) (Vector (Exact K) n) M} {φ : K → K} {γ : K → Fin n → K} {a ρ : K}
  {asked : Option (Exact K)} {l l' : Ledger (Exact K) (Vector (Exact K) n)} {k : ℕ}

/-- The trial of index `k`, counted from zero, may be made: the cap allows it, and no contracted
step up to it lies below the least step. -/
def Allows (s : Backtracking (Exact K)) (a ρ : K) (k : ℕ) : Prop :=
  k < s.maxIter.toNat ∧ ∀ j, 1 ≤ j → j ≤ k → ¬ number (a * ρ ^ j) < s.alphaMin

/-- The trial of index `k` decreases the value sufficiently. -/
def Decreases (s : Backtracking (Exact K)) (r : Ray (Exact K) (Vector (Exact K) n)) (φ : K → K)
    (a ρ : K) (k : ℕ) : Prop :=
  sufficientDecrease (number (φ (a * ρ ^ k))) r.start.value (number (a * ρ ^ k))
    (Space.inner r.start.gradient r.direction) s.c1 = true

/-- The trial of index `k` is the first one that decreases the value sufficiently, and it may be
made. -/
def Admits (s : Backtracking (Exact K)) (r : Ray (Exact K) (Vector (Exact K) n)) (φ : K → K)
    (a ρ : K) (k : ℕ) : Prop :=
  IsLeast {j | s.Decreases r φ a ρ j} k ∧ s.Allows a ρ k

/-- The questions of the first trials. -/
def valueRequests (r : Ray (Exact K) (Vector (Exact K) n)) (a ρ : K) (trials : ℕ) :
    List (Request (Vector (Exact K) n)) :=
  (List.range trials).map fun k => .value (r.along (number (a * ρ ^ k)))

theorem valueRequests_succ (r : Ray (Exact K) (Vector (Exact K) n)) (a ρ : K) (trials : ℕ) :
    valueRequests r a ρ (trials + 1) =
      valueRequests r a ρ trials ++ [.value (r.along (number (a * ρ ^ trials)))] := by
  simp [valueRequests, List.range_succ]

variable (s r φ γ a ρ) in
/-- How the search ends: with the first trial that decreases the value sufficiently, or without
success after all trials that it may make. -/
inductive Ends (before : List (Request (Vector (Exact K) n))) :
    Step (Exact K) (Vector (Exact K) n) → Ledger (Exact K) (Vector (Exact K) n) → Prop
  | taken {k : ℕ} {l : Ledger (Exact K) (Vector (Exact K) n)} (admits : s.Admits r φ a ρ k)
      (requests : l.requests.toList = before ++
        (valueRequests r a ρ (k + 1) ++ [.gradient (r.along (number (a * ρ ^ k)))])) :
      Ends before (.accepted (number (a * ρ ^ k))
        ⟨r.along (number (a * ρ ^ k)), number (φ (a * ρ ^ k)), lift (γ (a * ρ ^ k))⟩ (k + 1) 1
        .armijo) l
  | failed {trials : ℕ} {message : SearchMessage (Exact K)}
      {l : Ledger (Exact K) (Vector (Exact K) n)} (allowed : ∀ k, k < trials ↔ s.Allows a ρ k)
      (rejected : ∀ k < trials, ¬ s.Decreases r φ a ρ k)
      (requests : l.requests.toList = before ++ valueRequests r a ρ trials) :
      Ends before (.failed r trials 0 message) l

variable (s r φ a ρ) in
/-- The search is about to make the trial of index `k`: it made all trials before, and none of them
decreased the value sufficiently. -/
def Rejected (before : List (Request (Vector (Exact K) n))) (k : ℕ) (t : State (Exact K))
    (l : Ledger (Exact K) (Vector (Exact K) n)) : Prop :=
  (t = ⟨number (a * ρ ^ k), k⟩ ∧ (∀ j < k, ¬ s.Decreases r φ a ρ j) ∧
    ∀ j, 1 ≤ j → j ≤ k → ¬ number (a * ρ ^ j) < s.alphaMin) ∧
  l.requests.toList = before ++ valueRequests r a ρ k

theorem ensures_attempt_rejected (h : r.Samples o φ γ) (ho : o.Quiet) (hρ : s.rho = number ρ)
    {before : List (Request (Vector (Exact K) n))} (hk : k < s.maxIter.toNat)
    (t : State (Exact K)) :
    Ensures (Rejected s r φ a ρ before k t)
      (s.attempt o.recorded r (Space.inner r.start.gradient r.direction) t)
      (Rounded (Rejected s r φ a ρ before (k + 1)) (Ends s r φ γ a ρ before) fun _ _ => False) := by
  refine .of_fact ?_
  rintro ⟨rfl, hrejected, hfloor⟩
  apply h.ensures_armijoTrial ho
  · intro hdecrease l hl
    apply Ends.taken
    · exact ⟨⟨hdecrease, fun j hj => not_lt.mp fun hlt => hrejected j hlt hj⟩, hk, hfloor⟩
    · simpa [valueRequests_succ] using hl
  · intro hno
    have hnext : number (a * ρ ^ k) * s.rho = number (a * ρ ^ (k + 1)) := by
      rw [hρ, number_mul, pow_succ, mul_assoc]
    have hrejected' : ∀ j < k + 1, ¬ s.Decreases r φ a ρ j := by
      intro j hj
      rcases Nat.lt_succ_iff_lt_or_eq.mp hj with hj | rfl
      · exact hrejected j hj
      · exact hno
    simp only [hnext]
    apply Ensures.ite
    · intro hshort
      refine .pure fun l hl => Ends.failed (fun j => ?_) hrejected' ?_
      · constructor
        · intro hj
          exact ⟨by omega, fun i hi hij => hfloor i hi (by omega)⟩
        · rintro ⟨-, hj⟩
          by_contra hlt
          exact hj (k + 1) (by omega) (by omega) hshort
      · simpa [valueRequests_succ] using hl
    · intro hlong
      refine .pure fun l hl => ⟨⟨rfl, hrejected', fun j hj hjk => ?_⟩, ?_⟩
      · rcases Nat.le_succ_iff.mp hjk with hjk | rfl
        · exact hfloor j hj hjk
        · exact hlong
      · simpa [valueRequests_succ] using hl

theorem surely_search_ends (h : r.Samples o φ γ) (ho : o.Quiet) (hρ : s.rho = number ρ)
    (hprepare : r.prepare s.alpha0 asked =
      .ok (Space.inner r.start.gradient r.direction, number a))
    (before : List (Request (Vector (Exact K) n))) :
    Ensures (fun l => l.requests.toList = before) (s.search o.recorded r asked)
      (Surely (Ends s r φ γ a ρ before)) := by
  refine surely_prepared hprepare ?_
  refine surely_rounds (I := Rejected s r φ a ρ before)
    (fun k hk t => ensures_attempt_rejected h ho hρ hk t) (fun l hl => ?_) (fun t => ?_)
    fun _ => rfl
  · exact ⟨⟨by simp, by simp, by omega⟩, by simpa [valueRequests] using hl⟩
  · refine .of_fact ?_
    rintro ⟨rfl, hrejected, hfloor⟩
    refine .pure fun l hl => Ends.failed (fun k => ?_) hrejected hl
    exact ⟨fun hk => ⟨hk, fun j hj hjk => hfloor j hj (hjk.trans hk.le)⟩, fun hk => hk.1⟩

/-- The steps of a geometric sequence differ. -/
theorem pow_index_unique (hs : s.check = .ok ()) (hρ : s.rho = number ρ) (ha : 0 < a) {j k : ℕ}
    (h : a * ρ ^ j = a * ρ ^ k) : j = k := by
  obtain ⟨-, hpos, hlt⟩ := check_eq_ok hs
  rw [hρ] at hpos hlt
  have hpow : StrictAnti (ρ ^ ·) := pow_right_strictAnti₀ hpos hlt
  exact hpow.injective (mul_left_cancel₀ ha.ne' h)

/-- Backtracking takes the first step that decreases the value sufficiently. On a problem with
finite answers, along a direction that descends and from a first step `a`, the search returns; it
succeeds with the step `a ρ ^ k` just in case `k` is the least index of a step that decreases the
value sufficiently and the search may go that far. It has then asked for the values at the steps up
to this one, in their order, and for the gradient there. Otherwise it fails after it has asked for
the values at all steps that it may try, and for no gradient. -/
theorem search_takes_first (hs : s.check = .ok ()) (ho : o.Quiet) (h : r.Samples o φ γ)
    (hdescent : Space.inner r.start.gradient r.direction < 0) (ha : 0 < a)
    (hfirst : asked.getD s.alpha0 = number a) (hρ : s.rho = number ρ)
    (l : Ledger (Exact K) (Vector (Exact K) n)) :
    ∃ step l', (s.search o.recorded r asked).perform l = (.ok step, l') ∧
      (∀ k, step.success = true ∧ step.alpha = number (a * ρ ^ k) ↔ s.Admits r φ a ρ k) ∧
      (∀ k, s.Admits r φ a ρ k →
        step.values = k + 1 ∧ step.gradients = 1 ∧
        l'.requests.toList = l.requests.toList ++
          (valueRequests r a ρ (k + 1) ++ [.gradient (r.along (number (a * ρ ^ k)))])) ∧
      ((∀ k, ¬ s.Admits r φ a ρ k) →
        step.success = false ∧ step.gradients = 0 ∧ (∀ k, k < step.values ↔ s.Allows a ρ k) ∧
        l'.requests.toList = l.requests.toList ++ valueRequests r a ρ step.values) := by
  have hprepare := r.prepare_number hdescent ha hfirst
  have hends := surely_search_ends h ho hρ hprepare l.requests.toList l rfl
  rcases hrun : (s.search o.recorded r asked).run.run l with ⟨e | step, l'⟩ <;> rw [hrun] at hends
  · exact hends.elim
  refine ⟨step, l', hrun, ?_⟩
  cases hends with
  | taken admits requests =>
    rename_i k
    have hunique : ∀ j, s.Admits r φ a ρ j → j = k := fun j hj => hj.1.unique admits.1
    refine ⟨fun j => ⟨?_, fun hj => ?_⟩, fun j hj => ?_, fun hnone => absurd admits (hnone k)⟩
    · rintro ⟨-, halpha⟩
      rwa [← pow_index_unique hs hρ ha (number.inj halpha)]
    · rw [hunique j hj]
      exact ⟨rfl, rfl⟩
    · rw [hunique j hj]
      exact ⟨rfl, rfl, requests⟩
  | failed allowed rejected requests =>
    have hnone : ∀ j, ¬ s.Admits r φ a ρ j :=
      fun j hj => rejected j ((allowed j).mpr hj.2) hj.1.1
    refine ⟨fun j => ⟨?_, fun hj => absurd hj (hnone j)⟩, fun j hj => absurd hj (hnone j),
      fun _ => ⟨rfl, rfl, allowed, requests⟩⟩
    rintro ⟨hsuccess, -⟩
    cases hsuccess

/-- From `1` towards the minimum of `½ x²` the steps `4` and `2` do not decrease the value. -/
theorem search_takes_first_halfSquare :
    let s : Backtracking (Exact ℚ) := ⟨number 4, number (1 / 2), number (1 / 2), 10, 0⟩
    let r : Ray (Exact ℚ) (Vector (Exact ℚ) 1) :=
      ⟨⟨lift ![1], number (halfSquare.value ![1]), lift (halfSquare.gradient ![1])⟩, lift ![-1]⟩
    ∃ step l, (s.search halfSquare.objective.problem.oracle.recorded r none).perform {} =
        (.ok step, l) ∧ step.success = true ∧ step.alpha = number (4 * (1 / 2) ^ 2) ∧
      step.values = 3 ∧ l.valuePoints.length = 3 := by
  intro s r
  have hcheck : s.check = .ok () := by decide +kernel
  have hdescent : Space.inner r.start.gradient r.direction < 0 := by decide +kernel
  have hfirst : (none : Option (Exact ℚ)).getD s.alpha0 = number 4 := rfl
  obtain ⟨step, l, hrun, hiff, htaken, -⟩ := search_takes_first hcheck
    halfSquare.objective.problem.quiet_oracle (halfSquare.samples ![1] ![-1]) hdescent
    (by norm_num) hfirst (rfl : s.rho = number (1 / 2)) {}
  have hadmits : s.Admits r (fun t => halfSquare.value (![1] + t • ![-1])) 4 (1 / 2) 2 := by
    refine ⟨⟨?_, fun j hj => ?_⟩, by decide, fun j _ _ => ?_⟩
    · change sufficientDecrease _ _ _ _ _ = true
      decide +kernel
    · by_contra hlt
      change sufficientDecrease _ _ _ _ _ = true at hj
      interval_cases j <;> exact absurd hj (by decide +kernel)
    · exact (number_lt.not.mpr (not_lt.mpr (by positivity)))
  obtain ⟨hsuccess, halpha⟩ := (hiff 2).mpr hadmits
  obtain ⟨hvalues, -, hrequests⟩ := htaken 2 hadmits
  have hpoints : l.valuePoints.length = 3 := by
    simp [Ledger.valuePoints, hrequests, valueRequests, List.range_succ]
  exact ⟨step, l, hrun, hsuccess, halpha, hvalues, hpoints⟩

end Backtracking

section Parabola
variable {r : Ray (Exact K) (Vector (Exact K) n)} {φ : K → K} {f s κ c t : K}

/-- Along a ray of slope `-s` from the value `f` the values lie below a parabola of bend `κ`. -/
structure Ray.BelowParabola (r : Ray (Exact K) (Vector (Exact K) n)) (φ : K → K) (f s κ : K) :
    Prop where
  start : r.start.value = number f
  slope : Space.inner r.start.gradient r.direction = number (-s)
  steep : 0 < s
  bend_pos : 0 < κ
  below : ∀ t, 0 < t → φ t ≤ f - t * s + κ * t ^ 2

/-- A step without sufficient decrease is a long one. -/
theorem Ray.BelowParabola.lt_of_not_decrease (h : r.BelowParabola φ f s κ) (hc : 0 < c)
    (ht : 0 < t) (hno : ¬ sufficientDecrease (number (φ t)) (number f) (number t) (number (-s))
      (number c) = true) : (1 - c) * s / κ < t := by
  rw [Backtracking.sufficientDecrease_number hc ht (neg_neg_of_pos h.steep), not_le] at hno
  have hfall : t * ((1 - c) * s) < t * (t * κ) := by linarith [h.below t ht]
  rw [div_lt_iff₀ h.bend_pos]
  exact lt_of_mul_lt_mul_left hfall ht.le

end Parabola

section Contracting
variable {V σ : Type} {stepOf : σ → Exact K} {θ low high a x : K} {floor : Exact K} {cap : ℕ}

/-- What a round of a contracting search leaves that tries the step `x`: the step is taken, or it
was longer than `θ`; then the next one is between two shares of it, unless that lies below the least
step. -/
def Contracts (stepOf : σ → Exact K) (θ low high : K) (floor : Exact K) (x : K) :
    σ ⊕ Step (Exact K) V → Prop
  | .inl t => θ < x ∧ ∃ y, stepOf t = number y ∧ low * x ≤ y ∧ y ≤ high * x
  | .inr step => (step.success = true ∧ step.alpha = number x) ∨
      step.success = false ∧ θ < x ∧ ∃ y, low * x ≤ y ∧ number y < floor

/-- Before round `k`: the step is the first one or longer than a share of `θ`, and the step before
it, if there is one, was longer than `θ`. -/
structure Shortened (stepOf : σ → Exact K) (θ low high a : K) (k : ℕ) (t : σ) (x : K) : Prop where
  step_eq : stepOf t = number x
  pos : 0 < x
  le : x ≤ a * high ^ k
  long : x = a ∨ low * θ < x
  before : ∀ j, k = j + 1 → θ < a * high ^ j

/-- A successful step is the first one or longer than a share of `θ`. A search whose last trial is
not longer than `θ`, and whose least step is not longer than that share, succeeds. -/
structure Step.Long (step : Step (Exact K) V) (θ low high a : K) (floor : Exact K) (cap : ℕ) :
    Prop where
  alpha : step.success = true → ∃ x, step.alpha = number x ∧ (x = a ∨ low * θ < x)
  success : a * high ^ (cap - 1) ≤ θ → floor ≤ number (low * θ) → step.success = true

variable {k : ℕ} {t t' : σ}

/-- A step that is left after a trial longer than `θ`. -/
theorem Shortened.next (h : Shortened stepOf θ low high a k t x) (hlow : 0 < low) (hhigh : 0 < high)
    (hlong : θ < x) {y : K} (hy : stepOf t' = number y) (hlower : low * x ≤ y)
    (hupper : y ≤ high * x) : Shortened stepOf θ low high a (k + 1) t' y where
  step_eq := hy
  pos := (mul_pos hlow h.pos).trans_le hlower
  le := by
    calc y ≤ high * x := hupper
      _ ≤ high * (a * high ^ k) := mul_le_mul_of_nonneg_left h.le hhigh.le
      _ = a * high ^ (k + 1) := by ring
  long := .inr ((mul_lt_mul_of_pos_left hlong hlow).trans_le hlower)
  before := by
    intro j hj
    obtain rfl : k = j := by omega
    exact hlong.trans_le h.le

/-- The step that a round ends with. -/
theorem Shortened.long_step (h : Shortened stepOf θ low high a k t x) (hlow : 0 < low)
    {step : Step (Exact K) V} (hstep : Contracts stepOf θ low high floor x (.inr step)) :
    step.Long θ low high a floor cap := by
  rcases hstep with ⟨hsuccess, halpha⟩ | ⟨hfailed, hlong, y, hlower, hshort⟩
  · exact ⟨fun _ => ⟨x, halpha, h.long⟩, fun _ _ => hsuccess⟩
  · refine ⟨fun hsuccess => by simp [hfailed] at hsuccess, fun _ hfloor => ?_⟩
    have hbelow : y < low * θ := number_lt.mp (lt_of_lt_of_le hshort hfloor)
    have habove : low * θ < low * x := mul_lt_mul_of_pos_left hlong hlow
    exact absurd (habove.trans_le hlower) hbelow.not_gt

/-- A contracting search ends with a step that is long enough. -/
theorem replies_contracting {r : Ray (Exact K) V}
    {attempt : σ → Eval (Exact K) V (σ ⊕ Step (Exact K) V)}
    {next : σ ⊕ Step (Exact K) V → Eval (Exact K) V (Step (Exact K) V)} (hlow : 0 < low)
    (hhigh : 0 < high) (ha : 0 < a) (hcap : 0 < cap) (ht : stepOf t = number a)
    (hround : ∀ t x, stepOf t = number x → 0 < x →
      Replies (attempt t) (Contracts stepOf θ low high floor x))
    (hlast : ∀ t, ∃ trials message, next (.inl t) = pure (.failed r trials 0 message))
    (hresult : ∀ step, next (.inr step) = pure step) :
    Replies (upTo attempt cap t >>= next) fun step => step.Long θ low high a floor cap := by
  refine surely_rounds (I := fun k t _ => ∃ x, Shortened stepOf θ low high a k t x)
    (fun k hk t => ?_) (fun _ _ => ⟨a, ht, ha, by simp, .inl rfl, by omega⟩) (fun t => ?_) hresult
  · rintro l ⟨x, hx⟩
    have hr := hround t x hx.step_eq hx.pos l trivial
    rcases hrun : ((attempt t).run.run l).1 with e | t' | step <;> rw [hrun] at hr
    · exact hr.elim
    · obtain ⟨hlong, y, hy, hlower, hupper⟩ := hr
      exact ⟨y, hx.next hlow hhigh hlong hy hlower hupper⟩
    · exact hx.long_step hlow hr
  · obtain ⟨trials, message, hnext⟩ := hlast t
    rw [hnext]
    refine .pure ?_
    rintro l ⟨x, hx⟩
    constructor
    · intro hsuccess
      cases hsuccess
    · intro hshort
      exact absurd hshort (hx.before (cap - 1) (by omega)).not_ge

end Contracting

/-- A proposal is kept between two shares of the old step. -/
theorem CubicBacktracking.shrink_mem {s : CubicBacktracking (Exact K)} (hs : s.check = .ok ())
    {low high : K} (hlow : s.low = number low) (hhigh : s.high = number high)
    {f0 slope f alpha : Exact K} {t : CubicBacktracking.State (Exact K)} {x : K}
    (ht : t.alpha = number x) (hx : 0 < x) (h : s.shrink f0 slope t f = .ok alpha) :
    ∃ y, alpha = number y ∧ low * x ≤ y ∧ y ≤ high * x := by
  obtain ⟨rho, low', high', hrho, hlow', hhigh', -, hle⟩ := exists_numbers hs
  obtain rfl := number.inj (hlow.symm.trans hlow')
  obtain rfl := number.inj (hhigh.symm.trans hhigh')
  obtain ⟨b, rfl⟩ := exists_of_shrink_eq_ok (by rw [hrho, ht, number_mul, isFinite_number]) h
  rw [hlow, hhigh, ht, number_mul, number_mul, clamp_number]
  refine ⟨_, rfl, le_min (le_max_right _ _) ?_, min_le_right _ _⟩
  exact mul_le_mul_of_nonneg_right hle hx.le

namespace LineSearch

/-- The least and the greatest share of a step that a contraction leaves. -/
def contraction? {α : Type} : LineSearch α → Option (α × α)
  | backtracking s => some (s.rho, s.rho)
  | cubic s => some (s.low, s.high)
  | _ => none

/-- The least step of a contracting search. -/
def floor? {α : Type} : LineSearch α → Option α
  | backtracking s => some s.alphaMin
  | cubic s => some s.alphaMin
  | _ => none

end LineSearch

section Searches
variable {r : Ray (Exact K) (Vector (Exact K) n)} {o : Oracle (Exact K) (Vector (Exact K) n) M}
  {φ : K → K} {γ : K → Fin n → K} {f m κ c x a : K} (h : r.Samples o φ γ) (ho : o.Quiet)
  (hbelow : r.BelowParabola φ f m κ) (hc : 0 < c)
include h ho hbelow hc

/-- A trial of a contracting search: it is taken, or it is long and `next` contracts it. -/
theorem replies_contracts {σ : Type} {stepOf : σ → Exact K} {low high : K}
    {floor alpha c1 : Exact K} {trials : ℕ} (hc1 : c1 = number c) (halpha : alpha = number x)
    (hx : 0 < x)
    {next : Exact K →
      Eval (Exact K) (Vector (Exact K) n) (σ ⊕ Step (Exact K) (Vector (Exact K) n))}
    (hnext : (1 - c) * m / κ < x → ∀ y, Replies (next y)
      (Contracts stepOf ((1 - c) * m / κ) low high floor x)) :
    Replies (do
        let y ← trialValue o.recorded (r.along alpha) alpha
        if sufficientDecrease y r.start.value alpha (number (-m)) c1 then
          let g ← trialGradient o.recorded (r.along alpha) alpha
          return .inr (.accepted alpha ⟨r.along alpha, y, g⟩ (trials + 1) 1 .armijo)
        else next y)
      (Contracts stepOf ((1 - c) * m / κ) low high floor x) := by
  subst hc1 halpha
  refine .bind (replies_trialValue _ (h.replies_value ho x)) fun y hy => ?_
  subst hy
  apply Replies.ite
  · intro _
    exact .bind (replies_trialGradient _ (h.replies_gradient ho x)) fun g _ =>
      .pure (.inl ⟨rfl, rfl⟩)
  · intro hno
    rw [hbelow.start] at hno
    exact hnext (hbelow.lt_of_not_decrease hc hx hno) _

theorem Backtracking.replies_attempt_contracts {s : Backtracking (Exact K)} {ρ : K}
    (hc1 : s.c1 = number c) (hρ : s.rho = number ρ) (t : Backtracking.State (Exact K))
    (ht : t.alpha = number x) (hx : 0 < x) :
    Replies (s.attempt o.recorded r (number (-m)) t)
      (Contracts Backtracking.State.alpha ((1 - c) * m / κ) ρ ρ s.alphaMin x) := by
  refine replies_contracts h ho hbelow hc hc1 ht hx fun hlong y => ?_
  have hnext : t.alpha * s.rho = number (ρ * x) := by
    rw [ht, hρ, number_mul, mul_comm]
  rw [hnext]
  apply Replies.ite
  · intro hshort
    exact .pure (.inr ⟨rfl, hlong, ρ * x, le_rfl, hshort⟩)
  · intro _
    exact .pure ⟨hlong, ρ * x, rfl, le_rfl, le_rfl⟩

theorem CubicBacktracking.replies_attempt_contracts {s : CubicBacktracking (Exact K)} {low high : K}
    (hs : s.check = .ok ()) (hc1 : s.c1 = number c) (hlow : s.low = number low)
    (hhigh : s.high = number high) (t : CubicBacktracking.State (Exact K))
    (ht : t.alpha = number x) (hx : 0 < x) :
    Replies (s.attempt o.recorded r (number (-m)) t)
      (Contracts CubicBacktracking.State.alpha ((1 - c) * m / κ) low high s.alphaMin x) := by
  refine replies_contracts h ho hbelow hc hc1 ht hx fun hlong y => ?_
  obtain ⟨alpha, halpha⟩ := s.exists_shrink r.start.value (number (-m)) y t
  obtain ⟨z, rfl, hlower, hupper⟩ := shrink_mem hs hlow hhigh ht hx halpha
  refine .bind (Eval.replies_ofExcept (Q := fun b => b = number z) halpha rfl) fun b hb => ?_
  subst hb
  apply Replies.ite
  · intro hshort
    exact .pure (.inr ⟨rfl, hlong, z, hlower, hshort⟩)
  · intro _
    exact .pure ⟨hlong, z, rfl, hlower, hupper⟩

namespace LineSearch
variable {s : LineSearch (Exact K)} {low high : K} {floor first : Exact K} {cap : ℤ}
  {asked : Option (Exact K)}

/-- A search that contracts its steps ends with one that is long enough. -/
theorem replies_search_long (hs : s.check = .ok ()) (harmijo : s.armijo? = some (number c))
    (hcontraction : s.contraction? = some (number low, number high))
    (hfloor : s.floor? = some floor) (hcap : s.cap? = some cap) (hfirst : s.firstStep? = some first)
    (ha : 0 < a) (hprepare : r.prepare first asked = .ok (number (-m), number a)) :
    Replies (s.search o.recorded r asked) fun step =>
      step.Long ((1 - c) * m / κ) low high a floor cap.toNat := by
  have hpositive := cap_pos hs hcap
  cases s with
  | base => cases harmijo
  | bisection s => cases hcontraction
  | moreThuente s => cases hcontraction
  | backtracking s =>
    have hrho : 0 < s.rho := (Backtracking.check_eq_ok hs).2.1
    obtain ⟨hlow, hhigh⟩ := Prod.mk.inj (Option.some.inj hcontraction)
    obtain rfl := number.inj (hlow.symm.trans hhigh)
    have hlow_pos : 0 < low := number_lt.mp (hlow ▸ hrho)
    cases hfloor
    cases hcap
    cases hfirst
    have hround := fun t (y : K) => Backtracking.replies_attempt_contracts (x := y) h ho hbelow hc
      (Option.some.inj harmijo) hlow t
    apply surely_prepared hprepare
    exact replies_contracting (r := r) hlow_pos hlow_pos ha hpositive rfl hround
      (fun t => ⟨_, _, rfl⟩) fun _ => rfl
  | cubic s =>
    obtain ⟨-, -, hlow_pos, hle, -⟩ := CubicBacktracking.check_eq_ok hs
    obtain ⟨hlow, hhigh⟩ := Prod.mk.inj (Option.some.inj hcontraction)
    rw [hlow, zero_eq, number_lt] at hlow_pos
    rw [hlow, hhigh, number_le] at hle
    cases hfloor
    cases hcap
    cases hfirst
    have hround := fun t (y : K) => CubicBacktracking.replies_attempt_contracts (x := y) h ho hbelow
      hc hs (Option.some.inj harmijo) hlow hhigh t
    apply surely_prepared hprepare
    exact replies_contracting (r := r) hlow_pos (hlow_pos.trans_le hle) ha hpositive rfl hround
      (fun t => ⟨_, _, rfl⟩) fun _ => rfl

end LineSearch

end Searches

/-- Backtracking steps have a guaranteed length. On a problem with finite answers whose values along
a ray of slope `-m` lie below a parabola of bend `κ`, a search by contraction returns from every
first step `a`; if it succeeds its step is `a` itself or longer than the least share of
`(1 - c) m / κ`. It does succeed if it may contract `a` to that length and its least step is not
longer than that share of it. -/
theorem LineSearch.search_step_length {r : Ray (Exact K) (Vector (Exact K) n)}
    {o : Oracle (Exact K) (Vector (Exact K) n) M} {φ : K → K} {γ : K → Fin n → K}
    {f m κ c a low high : K} {s : LineSearch (Exact K)} {floor first : Exact K} {cap : ℤ}
    {asked : Option (Exact K)} (hs : s.check = .ok ()) (harmijo : s.armijo? = some (number c))
    (hcontraction : s.contraction? = some (number low, number high))
    (hfloor : s.floor? = some floor) (hcap : s.cap? = some cap) (hfirst : s.firstStep? = some first)
    (ho : o.Quiet) (h : r.Samples o φ γ) (hbelow : r.BelowParabola φ f m κ) (ha : 0 < a)
    (hasked : asked.getD first = number a) (l : Ledger (Exact K) (Vector (Exact K) n)) :
    ∃ step l', (s.search o.recorded r asked).perform l = (.ok step, l') ∧
      (step.success = true →
        ∃ t, step.alpha = number t ∧ (t = a ∨ low * ((1 - c) * m / κ) < t)) ∧
      (a * high ^ (cap.toNat - 1) ≤ (1 - c) * m / κ → floor ≤ number (low * ((1 - c) * m / κ)) →
        step.success = true) := by
  have hc : 0 < c := by
    obtain ⟨c', hc', hpos⟩ := exists_armijo hs harmijo
    rwa [number.inj hc']
  have hdescent : Space.inner r.start.gradient r.direction < 0 := by
    rw [hbelow.slope]
    exact number_lt.mpr (neg_neg_of_pos hbelow.steep)
  have hprepare := r.prepare_number hdescent ha hasked
  rw [hbelow.slope] at hprepare
  obtain ⟨step, l', hrun, hlong⟩ := (replies_search_long h ho hbelow hc hs harmijo hcontraction
    hfloor hcap hfirst ha hprepare).exists_answer l
  exact ⟨step, l', hrun, hlong.alpha, hlong.success⟩

/-- On `½ x²` the search with interpolation comes down from the step `4`. -/
theorem LineSearch.search_step_length_halfSquare :
    let s : LineSearch (Exact ℚ) := .cubic
      ⟨number 4, number (1 / 2), number (1 / 2), number (1 / 10), number (1 / 2), 10, 0⟩
    let r : Ray (Exact ℚ) (Vector (Exact ℚ) 1) :=
      ⟨⟨lift ![1], number (halfSquare.value ![1]), lift (halfSquare.gradient ![1])⟩, lift ![-1]⟩
    ∃ step l, (s.search halfSquare.objective.problem.oracle.recorded r none).perform {} =
        (.ok step, l) ∧ step.success = true ∧
      ∃ t, step.alpha = number t ∧ (t = 4 ∨ 1 / 10 * ((1 - 1 / 2) * 1 / (1 / 2)) < t) := by
  intro s r
  have hcheck : s.check = .ok () := by decide +kernel
  have hbelow : r.BelowParabola (fun t => halfSquare.value (![1] + t • ![-1])) (1 / 2) 1
      (1 / 2) := by
    refine ⟨by decide +kernel, by decide +kernel, by norm_num, by norm_num, fun t _ => ?_⟩
    rw [value_halfSquare]
    exact (by ring : 1 / 2 * (1 - t) ^ 2 = 1 / 2 - t * 1 + 1 / 2 * t ^ 2).le
  have hasked : (none : Option (Exact ℚ)).getD (number 4) = number 4 := rfl
  obtain ⟨step, l, hrun, hlong, hsuccess⟩ := search_step_length hcheck rfl rfl rfl rfl rfl
    halfSquare.objective.problem.quiet_oracle (halfSquare.samples ![1] ![-1]) hbelow
    (by norm_num) hasked {}
  have hfar : (4 : ℚ) * (1 / 2) ^ ((10 : ℤ).toNat - 1) ≤ (1 - 1 / 2) * 1 / (1 / 2) := by
    change (4 : ℚ) * (1 / 2) ^ 9 ≤ _
    norm_num
  have hok := hsuccess hfar (number_le.mpr (by norm_num))
  exact ⟨step, l, hrun, hok, hlong hok⟩

end Downhill
