import Downhill.Proofs.Descent.Sturdy

/-! Iterations that succeed at the first attempt. Where the strategy has a direction that descends
and the search along it succeeds, an iteration moves to what was reached, and ends the run if its
test is met there. -/
namespace Downhill

section Attempts
variable {σ ρ α β : Type} {I : σ → Prop}

section Parts
variable {V : Type} {trace : Array (Iterate α V)}

/-- A search that always has an answer. -/
theorem surely_look {c : Eval α V β} {Q : β → Prop} (h : Replies c Q) :
    Ensures (Keeps I trace) (Descent.look (Act.ofEval c) : Act (Flow σ ρ α V) α V β)
      (Surely fun b t => Q b ∧ Keeps I trace t) := by
  intro t ht
  obtain ⟨b, l, hc, hb⟩ := h.exists_answer t.2
  have hrun : ((Descent.look (Act.ofEval c) : Act (Flow σ ρ α V) α V β).run.run t).1 =
      (c.run.run t.2).1 := rfl
  rw [hrun, hc]
  exact ⟨hb, ht⟩

end Parts

namespace Descent
variable [Scalar α] {n : ℕ} {J : σ → Prop} {A : Option α → Prop} {B : Step α (Vector α n) → Prop}
  {L : Step α (Vector α n) → σ → Prop} {d : Descent σ Unit α (Vector α n) (Matrix α n)}
  {o : Oracle α (Vector α n) (Matrix α n)} {ls : LineSearch α} {x : Iterate α (Vector α n)}
  {direction : Vector α n} {trace : Array (Iterate α (Vector α n))}

/-- From `x` and a state with `I` the strategy goes along a direction that descends, and its state
then has `J`; it asks for a first step with `A`, the search makes a step with `B`, and what the
strategy learns from that leaves a state with `L`. -/
structure Advances (d : Descent σ Unit α (Vector α n) (Matrix α n))
    (o : Oracle α (Vector α n) (Matrix α n)) (ls : LineSearch α) (x : Iterate α (Vector α n))
    (direction : Vector α n) (I J : σ → Prop) (A : Option α → Prop)
    (B : Step α (Vector α n) → Prop) (L : Step α (Vector α n) → σ → Prop) : Prop where
  compute : Ensures (fun t => I t.1) (d.strategy.compute o x)
    (Surely fun v t => v = direction ∧ J t.1)
  finite : Space.finite direction = true
  descends : Space.inner x.gradient direction < 0
  initialStep : Ensures (fun t => J t.1) (d.strategy.initialStep x.gradient direction)
    (Surely fun asked t => A asked ∧ J t.1)
  machine : d.search = ls.machine
  search : ∀ asked, A asked → Replies (ls.search o ⟨x, direction⟩ asked) fun step =>
    (step.success = true ∧ finiteStep step = true) ∧ B step
  update : ∀ step, B step → Ensures (fun t => J t.1)
    (d.strategy.update (step.reached.point - x.point) (step.reached.gradient - x.gradient)
      step.reached.gradient step.alpha direction) (Surely fun _ t => L step t.1)

namespace Advances
variable (h : d.Advances o ls x direction I J A B L) (k : ℕ)
include h

theorem surely_propose : Ensures (Keeps I trace) (d.propose o ⟨x, k⟩)
    (Surely fun r τ => r = .ok direction ∧ Keeps J trace τ) := by
  have hcompute : Ensures (Keeps I trace) _ _ :=
    surely_guarded_ok (surely_ask (ρ := Unit) h.compute)
  refine Surely.bind (surely_note _) fun _ => Surely.bind hcompute fun r => ?_
  refine .of_known (φ := r = .ok direction) (R := Keeps J trace) ?_ fun hr => ?_
  · rintro τ ⟨v, rfl, ⟨rfl, hJ⟩, htrace⟩
    exact ⟨rfl, hJ, htrace⟩
  · subst hr
    refine .ite (fun _ => ?_) fun hno => absurd h.finite hno
    refine Act.ensures_ofExcept_bind (Space.dot?_vector _ _) ?_
    exact .ite (fun _ => .pure fun τ hτ => ⟨rfl, hτ⟩) fun hno => absurd h.descends hno

theorem surely_explore : Ensures (Keeps J trace) (d.explore o ⟨x, k⟩ direction)
    (Surely fun r τ => (r.1 = direction ∧ (r.2.success = true ∧ finiteStep r.2 = true) ∧ B r.2) ∧
      Keeps J trace τ) := by
  have hasked : Ensures (Keeps J trace) _ _ := surely_ask (ρ := Unit) h.initialStep
  have halong : Ensures (Keeps J trace) (d.searchAlong o x direction) (Surely fun step τ =>
      ((step.success = true ∧ finiteStep step = true) ∧ B step) ∧ Keeps J trace τ) := by
    refine Surely.bind (surely_note _) fun _ => Surely.bind hasked fun asked => ?_
    refine .of_known (R := Keeps J trace) (fun τ hτ => ⟨hτ.1.1, hτ.1.2, hτ.2⟩) fun hA => ?_
    rw [h.machine]
    exact Surely.bind (surely_note _) fun _ => surely_look (h.search asked hA)
  refine Surely.bind halong fun step => .of_fact fun hstep => ?_
  refine .ite (fun _ => .pure fun τ hτ => ⟨⟨rfl, hstep⟩, hτ⟩) fun hno => ?_
  rw [hstep.1.1] at hno
  exact absurd rfl hno

theorem surely_take {step : Step α (Vector α n)} (hfinite : finiteStep step = true) (hB : B step)
    {done : Bool} (hdone : d.verdict x step.reached = .ok done) :
    Ensures (Keeps J trace) (d.take ⟨x, k⟩ direction step) (Surely fun r τ =>
      r = (if done then .inr ((⟨step.reached, k + 1⟩ : Progress α (Vector α n)).stop .converged
          .toleranceMet) else .inl ⟨step.reached, k + 1⟩) ∧
        Keeps (L step) (trace.push step.reached) τ) := by
  refine .ite (fun _ => ?_) fun hno => absurd hfinite hno
  refine Act.ensures_ofExcept_bind (Space.difference?_vector _ _) ?_
  refine Act.ensures_ofExcept_bind (Space.difference?_vector _ _) ?_
  refine Surely.bind (surely_note _) fun _ => ?_
  refine Surely.bind (surely_ask (h.update step hB)) fun _ => ?_
  refine Surely.bind (surely_remark _) fun _ => ?_
  refine Surely.bind (R := fun _ => Keeps (L step) (trace.push step.reached))
    (fun _ hτ => ⟨hτ.1, congrArg (Array.push · step.reached) hτ.2⟩) fun _ => ?_
  refine Act.ensures_ofExcept_bind hdone ?_
  cases done with
  | true => exact .pure fun τ hτ => ⟨rfl, hτ⟩
  | false => exact .pure fun τ hτ => ⟨rfl, hτ⟩

/-- The iteration moves to what was reached. -/
theorem surely_iterate
    (hdecides : ∀ step, B step → ∃ done, d.verdict x step.reached = .ok done) :
    Ensures (Keeps I trace) (d.iterate o ⟨x, k⟩) (Surely fun r τ => ∃ step done, B step ∧
      d.verdict x step.reached = .ok done ∧
      r = (if done then .inr ((⟨step.reached, k + 1⟩ : Progress α (Vector α n)).stop .converged
          .toleranceMet) else .inl ⟨step.reached, k + 1⟩) ∧
      Keeps (L step) (trace.push step.reached) τ) := by
  refine Surely.bind (h.surely_propose k) fun r => .of_fact fun hr => ?_
  subst hr
  refine Surely.bind (surely_guarded_ok (h.surely_explore k)) fun r => ?_
  refine .of_known (φ := ∃ step, r = .ok (direction, step) ∧ (step.success = true ∧
    finiteStep step = true) ∧ B step) (R := Keeps J trace) ?_ fun hr => ?_
  · rintro τ ⟨⟨v, step⟩, rfl, ⟨rfl, hstep⟩, hτ⟩
    exact ⟨⟨step, rfl, hstep⟩, hτ⟩
  · obtain ⟨step, rfl, ⟨hsuccess, hfinite⟩, hB⟩ := hr
    obtain ⟨done, hdone⟩ := hdecides step hB
    refine .ite (fun _ => ?_) fun hno => absurd hsuccess hno
    exact Surely.imp (h.surely_take k hfinite hB hdone) fun r τ hr => ⟨step, done, hB, hdone, hr⟩

end Advances

end Descent

end Attempts

/-! Iterations whose parts are known. Where the strategy has a direction that descends and the first
search along it succeeds, an iteration moves to what was reached, and ends the run if its test is
met there. -/

section Known
variable {σ α : Type} {I : σ → Prop}

namespace Descent
variable [Scalar α] {n : ℕ} {d : Descent σ Unit α (Vector α n) (Matrix α n)}
  {o : Oracle α (Vector α n) (Matrix α n)} {ls : LineSearch α} {x y : Iterate α (Vector α n)}
  {direction : Vector α n} {trace : Array (Iterate α (Vector α n))}

/-- From `x` the strategy goes along a direction that descends, and the search that it leaves the
first step to succeeds at `y`, where everything is finite. -/
structure Strides (d : Descent σ Unit α (Vector α n) (Matrix α n))
    (o : Oracle α (Vector α n) (Matrix α n)) (I : σ → Prop) (ls : LineSearch α)
    (x : Iterate α (Vector α n)) (direction : Vector α n) (y : Iterate α (Vector α n)) : Prop where
  compute : Ensures (fun t => I t.1) (d.strategy.compute o x)
    (Surely fun v t => v = direction ∧ I t.1)
  finite : Space.finite direction = true
  descends : Space.inner x.gradient direction < 0
  initialStep : Ensures (fun t => I t.1) (d.strategy.initialStep x.gradient direction)
    (Surely fun asked t => asked = none ∧ I t.1)
  machine : d.search = ls.machine
  search : Replies (ls.search o ⟨x, direction⟩ none) fun step =>
    step.success = true ∧ step.reached = y
  reached : Space.finite y.point = true ∧ Scalar.isFinite y.value = true ∧
    Space.finite y.gradient = true
  update : ∀ s g alpha, Ensures (fun t => I t.1)
    (d.strategy.update s g y.gradient alpha direction) (Surely fun _ t => I t.1)

namespace Strides
variable (h : d.Strides o I ls x direction y) (k : ℕ)
include h

theorem advances : d.Advances o ls x direction I I (fun asked => asked = none)
    (fun step => step.reached = y) fun _ => I where
  compute := h.compute
  finite := h.finite
  descends := h.descends
  initialStep := h.initialStep
  machine := h.machine
  search := by
    rintro _ rfl
    refine h.search.mono fun step ⟨hsuccess, hreached⟩ => ⟨⟨hsuccess, ?_⟩, hreached⟩
    rw [finiteStep, hreached]
    simp only [h.reached, Bool.and_self]
  update step hstep := by
    rw [hstep]
    exact h.update _ _ _

/-- The iteration moves to what was reached. -/
theorem surely_iterate {done : Bool} (hdone : d.verdict x y = .ok done) :
    Ensures (Keeps I trace) (d.iterate o ⟨x, k⟩) (Surely fun r τ =>
      r = (if done then .inr ((⟨y, k + 1⟩ : Progress α (Vector α n)).stop .converged .toleranceMet)
        else .inl ⟨y, k + 1⟩) ∧ Keeps I (trace.push y) τ) := by
  have hdecides : ∀ step : Step α (Vector α n), step.reached = y →
      ∃ done, d.verdict x step.reached = .ok done := fun step hstep => ⟨done, hstep ▸ hdone⟩
  refine Surely.imp (h.advances.surely_iterate k hdecides) fun r τ hr => ?_
  obtain ⟨step, done', rfl, hdone', rfl, hτ⟩ := hr
  obtain rfl := Except.ok.inj (hdone.symm.trans hdone')
  exact ⟨rfl, hτ⟩

/-- The loop ends with the iteration if the test is met. -/
theorem surely_loop {cap : ℕ} (hcap : 0 < cap) (hdone : d.verdict x y = .ok true) :
    Ensures (Keeps I trace) (upTo (d.iterate o) cap ⟨x, k⟩) (Surely fun r τ =>
      r = .inr ((⟨y, k + 1⟩ : Progress α (Vector α n)).stop .converged .toleranceMet) ∧
        Keeps I (trace.push y) τ) := by
  obtain ⟨cap, rfl⟩ := Nat.exists_eq_succ_of_ne_zero hcap.ne'
  rw [upTo_succ]
  refine Surely.bind (h.surely_iterate k hdone) fun r => .of_fact fun hr => ?_
  subst hr
  exact .pure fun τ hτ => ⟨rfl, hτ⟩

end Strides

end Descent

end Known

end Downhill
