import Downhill.Proofs.LineSearch.Contract
import Downhill.Proofs.Exact.Basic
import Downhill.Direction.QuasiNewton.Strategy
import Downhill.Proofs.Descent.Opening
import Downhill.Proofs.Descent.Steady
import Downhill.Proofs.LineSearch.Family

/-! The iterates of a run as a trail: each follows from the one before it by a step that leads down.
A trail is put together at its end, as the run goes on, and read from its start. -/
namespace Downhill
variable {K V M : Type} [ExactField K] [Space (Exact K) V] {o : Oracle (Exact K) V M}
  {c1 : Exact K} {x y z : Iterate (Exact K) V} {alpha : Exact K} {direction : V}
  {steps : List (Exact K × V)} {path : List (Iterate (Exact K) V)}

open Exact

/-- A step along a direction of descent that a search may take. -/
structure Downward (o : Oracle (Exact K) V M) (c1 : Exact K) (x : Iterate (Exact K) V)
    (alpha : Exact K) (direction : V) (y : Iterate (Exact K) V) : Prop where
  slope_neg : Space.inner x.gradient direction < 0
  admits : Ray.Admits ⟨x, direction⟩ o c1 alpha y

/-- The iterates after `x`, each with a finite value, by steps of these lengths along these
directions; the last one is `z`. -/
inductive Trail (o : Oracle (Exact K) V M) (c1 : Exact K) : Iterate (Exact K) V →
    List (Exact K × V) → List (Iterate (Exact K) V) → Iterate (Exact K) V → Prop
  | stay (x : Iterate (Exact K) V) : Trail o c1 x [] [] x
  | step {x y z : Iterate (Exact K) V} {alpha : Exact K} {direction : V}
      {steps : List (Exact K × V)} {path : List (Iterate (Exact K) V)}
      (hxy : Downward o c1 x alpha direction y) (hfin : Scalar.isFinite y.value = true)
      (hyz : Trail o c1 y steps path z) :
      Trail o c1 x ((alpha, direction) :: steps) (y :: path) z

/-- The first-order changes of the steps, `alpha * (g · d)` each. -/
def firstOrder (iterates : List (Iterate (Exact K) V)) (steps : List (Exact K × V)) :
    List (Exact K) :=
  List.zipWith (fun x s => s.1 * Space.inner x.gradient s.2) iterates steps

namespace Trail

theorem snoc (h : Trail o c1 x steps path y) (hyz : Downward o c1 y alpha direction z)
    (hfin : Scalar.isFinite z.value = true) :
    Trail o c1 x (steps ++ [(alpha, direction)]) (path ++ [z]) z := by
  induction h with
  | stay x => exact .step hyz hfin (.stay z)
  | step hxy hy _ ih => exact .step hxy hy (ih hyz)

theorem last_mem (h : Trail o c1 x steps path z) : z ∈ x :: path := by
  induction h with
  | stay => exact List.mem_cons_self
  | step _ _ _ ih => exact List.mem_cons_of_mem _ ih

theorem faithful (h : Trail o c1 x steps path z) (hx : o.Faithful x) :
    ∀ y ∈ x :: path, o.Faithful y := by
  induction h with
  | stay => simpa using hx
  | step hxy _ _ ih =>
    rw [List.forall_mem_cons]
    exact ⟨hx, ih ⟨hxy.admits.value_eq, hxy.admits.gradient_eq⟩⟩

theorem length_eq (h : Trail o c1 x steps path z) : steps.length = path.length := by
  induction h with
  | stay => rfl
  | step _ _ _ ih => simp [ih]

theorem downward {v w : Iterate (Exact K) V} {k : ℕ} (h : Trail o c1 x steps path z)
    (hv : (x :: path)[k]? = some v) (hw : path[k]? = some w) :
    ∃ alpha direction, steps[k]? = some (alpha, direction) ∧
      Downward o c1 v alpha direction w := by
  induction h generalizing k with
  | stay => simp at hw
  | @step x y z alpha direction steps path hxy _ _ ih =>
    cases k with
    | zero =>
      obtain rfl : x = v := by simpa using hv
      obtain rfl : y = w := by simpa using hw
      exact ⟨alpha, direction, rfl, hxy⟩
    | succ k => simpa using ih (by simpa using hv) (by simpa using hw)

/-- The value at the end of a trail: it has decreased by at least the share `c1` of the sum of the
first-order changes. -/
theorem value_le {c f : K} (h : Trail o (number c) x steps path z) (hc : 0 < c)
    (hx : x.value = number f) :
    ∃ e t, z.value = number e ∧ (firstOrder (x :: path) steps).sum = number t ∧
      e ≤ f + c * t := by
  induction h generalizing f with
  | stay => exact ⟨f, 0, hx, rfl, by simp⟩
  | @step x y z alpha direction steps path hxy hfin _ ih =>
    obtain ⟨v, hv⟩ := isFinite_iff.mp hfin
    obtain ⟨e, t, hz, hsum, hle⟩ := ih hv
    have hdown : y.value ≤ x.value + number c * alpha * Space.inner x.gradient direction :=
      hxy.admits.value_le
    rw [hv] at hdown
    obtain ⟨a, m, rfl, -, hm, -⟩ :=
      exists_of_le_add_gain hc hxy.admits.alpha_pos hxy.slope_neg hdown
    rw [hx, hm, number_mul, number_mul, number_add, number_le] at hdown
    refine ⟨e, a * m + t, hz, ?_, ?_⟩
    · simp only [firstOrder] at hsum ⊢
      rw [List.zipWith_cons_cons, List.sum_cons, hsum, hm, number_mul, number_add]
    · calc e ≤ v + c * t := hle
        _ ≤ f + c * a * m + c * t := by gcongr
        _ = f + c * (a * m + t) := by ring

end Trail

end Downhill

/-! A run goes downhill. Whatever the strategy proposes and wherever a direction is replaced or a
search is repeated, the steps that are taken are steps of the search, and the iterates form a trail
that leads down. -/
namespace Downhill
variable {σ ρ α V M : Type}

namespace Descent

section Searches
variable {K : Type} [ExactField K] {n : ℕ}
  {d : Descent σ Unit (Exact K) (Vector (Exact K) n) (Matrix (Exact K) n)}
  {v : List (Exact K × Vector (Exact K) n) × List (Iterate (Exact K) (Vector (Exact K) n))}
  {o : Oracle (Exact K) (Vector (Exact K) n) (Matrix (Exact K) n)} {s : LineSearch (Exact K)}
  {c1 : Exact K} (hs : s.check = .ok ()) (hc : s.armijo? = some c1) (ho : o.Quiet)
include hs hc ho

/-- A search that succeeds found a step that leads down. -/
theorem ensures_downward (x : Iterate (Exact K) (Vector (Exact K) n))
    (hx : o.valueAt x.point = .ok x.value) (direction : Vector (Exact K) n)
    (asked : Option (Exact K)) :
    Ensures (fun _ => True) (s.search o.recorded ⟨x, direction⟩ asked) (Answered fun step _ =>
      step.success = true → Downward o c1 x step.alpha direction step.reached) := by
  intro l _
  have hmeets := s.ensures_search hs hc ho ⟨x, direction⟩ asked l.asked hx l rfl
  have hneg := s.ensures_descending (o := o.recorded) ⟨x, direction⟩ asked l trivial
  rcases hr : (s.search o.recorded ⟨x, direction⟩ asked).run.run l with ⟨r, l'⟩
  rw [hr] at hmeets hneg
  cases r with
  | ok step => exact fun hok => ⟨hneg, hmeets.taken hok⟩
  | error f => trivial

variable (hd : d.search = s.machine)
include hd

theorem steady_searchAlong (x : Iterate (Exact K) (Vector (Exact K) n))
    (hx : o.valueAt x.point = .ok x.value) (direction : Vector (Exact K) n) :
    Ensures (At v) (d.searchAlong o.recorded x direction) (Steady v fun step =>
      step.success = true → Downward o c1 x step.alpha direction step.reached) := by
  refine Steady.seq (steady_note rfl) fun _ _ => ?_
  refine Steady.seq (steady_ask _) fun asked _ => ?_
  refine Steady.seq (steady_note rfl) fun _ _ => ?_
  rw [hd]
  exact steady_look (ensures_downward hs hc ho x hx direction asked)

theorem steady_explore (t : Progress (Exact K) (Vector (Exact K) n))
    (hx : o.valueAt t.current.point = .ok t.current.value) (direction : Vector (Exact K) n) :
    Ensures (At v) (d.explore o.recorded t direction) (Steady v fun r =>
      r.2.success = true → Downward o c1 t.current r.2.alpha r.1 r.2.reached) := by
  refine Steady.seq (steady_searchAlong hs hc ho hd _ hx _) fun step hstep => ?_
  refine .ite (fun _ => Steady.pure hstep) fun _ => ?_
  refine Steady.seq (steady_remark _) fun _ _ => ?_
  refine Steady.seq d.steady_reset fun _ _ => ?_
  exact Steady.seq (steady_searchAlong hs hc ho hd _ hx _) fun step hstep => Steady.pure hstep

end Searches

section Loop
variable {K : Type} [ExactField K] {n : ℕ}
  {d : Descent σ Unit (Exact K) (Vector (Exact K) n) (Matrix (Exact K) n)}
  {o : Oracle (Exact K) (Vector (Exact K) n) (Matrix (Exact K) n)} {c1 : Exact K}
  {start : Iterate (Exact K) (Vector (Exact K) n)}
  {v : List (Exact K × Vector (Exact K) n) × List (Iterate (Exact K) (Vector (Exact K) n))}

/-- The run has come from the start to `x`. -/
def Reached (o : Oracle (Exact K) (Vector (Exact K) n) (Matrix (Exact K) n)) (c1 : Exact K)
    (start x : Iterate (Exact K) (Vector (Exact K) n))
    (t : Flow σ ρ (Exact K) (Vector (Exact K) n) × Ledger (Exact K) (Vector (Exact K) n)) : Prop :=
  Trail o c1 start t.1.taken t.1.trace.toList x

/-- A run that broke off: a step that was reported may be missing from the trail. -/
def Broken (o : Oracle (Exact K) (Vector (Exact K) n) (Matrix (Exact K) n)) (c1 : Exact K)
    (start : Iterate (Exact K) (Vector (Exact K) n))
    (t : Flow σ ρ (Exact K) (Vector (Exact K) n) × Ledger (Exact K) (Vector (Exact K) n)) : Prop :=
  ∃ steps rest x, t.1.taken = steps ++ rest ∧ Trail o c1 start steps t.1.trace.toList x

theorem Reached.broken {x : Iterate (Exact K) (Vector (Exact K) n)}
    {t : Flow σ ρ (Exact K) (Vector (Exact K) n) × Ledger (Exact K) (Vector (Exact K) n)}
    (h : Reached o c1 start x t) : Broken o c1 start t :=
  ⟨_, [], x, (List.append_nil _).symm, h⟩

/-- What a round leaves behind: a longer trail, or one that ends at the iterate of the stop. -/
abbrev Advanced (o : Oracle (Exact K) (Vector (Exact K) n) (Matrix (Exact K) n)) (c1 : Exact K)
    (start : Iterate (Exact K) (Vector (Exact K) n)) :
    Except (Fault (Exact K)) (Progress (Exact K) (Vector (Exact K) n) ⊕
      Stop (Exact K) (Vector (Exact K) n)) →
    Flow σ ρ (Exact K) (Vector (Exact K) n) × Ledger (Exact K) (Vector (Exact K) n) → Prop :=
  Rounded (fun t => Reached o c1 start t.current) (fun stop => Reached o c1 start stop.final)
    fun _ => Broken o c1 start

theorem ensures_take {t : Progress (Exact K) (Vector (Exact K) n)}
    (hv : Trail o c1 start v.1 v.2 t.current) {direction : Vector (Exact K) n}
    {step : Step (Exact K) (Vector (Exact K) n)}
    (hstep : Downward o c1 t.current step.alpha direction step.reached) :
    Ensures (At v) (d.take t direction step) (Advanced o c1 start) := by
  have hnow : ∀ τ : Flow σ Unit (Exact K) (Vector (Exact K) n) × _, At v τ →
      Reached o c1 start t.current τ := by
    rintro τ rfl
    exact hv
  refine .ite (fun hfin => ?_) fun _ => .pure fun τ hτ => hnow τ hτ
  have hvalue : Scalar.isFinite step.reached.value = true := by
    simp only [finiteStep, Bool.and_eq_true] at hfin
    exact hfin.1.2
  refine Steady.bind (steady_ofExcept _) (fun s _ => ?_) fun _ τ hτ => (hnow τ hτ).broken
  refine Steady.bind (steady_ofExcept _) (fun y _ => ?_) fun _ τ hτ => (hnow τ hτ).broken
  have hreported : ∀ τ : Flow σ Unit (Exact K) (Vector (Exact K) n) × _,
      At (v.1 ++ [(step.alpha, direction)], v.2) τ → Broken o c1 start τ := by
    intro τ hτ
    obtain ⟨htaken, hpath⟩ := Prod.mk.inj hτ
    exact ⟨v.1, _, t.current, htaken, by rwa [hpath]⟩
  refine .bind (ensures_note _) (fun _ => ?_) fun _ τ hτ => hreported τ hτ
  refine Steady.bind (steady_ask _) (fun _ _ => ?_) fun _ τ hτ => hreported τ hτ
  refine Steady.bind (steady_remark _) (fun _ _ => ?_) fun _ τ hτ => hreported τ hτ
  have hnext : ∀ τ : Flow σ Unit (Exact K) (Vector (Exact K) n) × _,
      At (v.1 ++ [(step.alpha, direction)], v.2 ++ [step.reached]) τ →
        Reached o c1 start step.reached τ := by
    intro τ hτ
    obtain ⟨htaken, hpath⟩ := Prod.mk.inj hτ
    rw [Reached, htaken, hpath]
    exact hv.snoc hstep hvalue
  refine .bind (ensures_push _) (fun _ => ?_) fun _ τ hτ => (hnext τ hτ).broken
  refine Steady.bind (steady_ofExcept _) (fun stop _ => ?_) fun _ τ hτ => (hnext τ hτ).broken
  cases stop with
  | true => exact .pure hnext
  | false => exact .pure hnext

variable {s : LineSearch (Exact K)} (hs : s.check = .ok ()) (hc : s.armijo? = some c1)
  (ho : o.Quiet) (hd : d.search = s.machine)
  (hstart : o.Faithful start)

include hs hc ho hd hstart

theorem ensures_iterate (t : Progress (Exact K) (Vector (Exact K) n)) :
    Ensures (Reached o c1 start t.current) (d.iterate o.recorded t) (Advanced o c1 start) := by
  intro τ hτ
  have hnow : ∀ τ' : Flow σ Unit (Exact K) (Vector (Exact K) n) × _, At τ.1.progress τ' →
      Reached o c1 start t.current τ' := by
    intro τ' hτ'
    obtain ⟨htaken, hpath⟩ := Prod.mk.inj hτ'
    rwa [Reached, htaken, hpath]
  have hx : o.valueAt t.current.point = .ok t.current.value :=
    (hτ.faithful hstart _ hτ.last_mem).1
  refine (?_ : Ensures (At τ.1.progress) (d.iterate o.recorded t) (Advanced o c1 start)) τ rfl
  refine Steady.bind (d.steady_propose o.recorded t) (fun r _ => ?_)
    fun _ τ' h => (hnow τ' h).broken
  cases r with
  | error message => exact .pure hnow
  | ok direction =>
    refine Steady.bind (Steady.guarded (steady_explore hs hc ho hd t hx direction))
      (fun r hr => ?_) fun _ τ' h => (hnow τ' h).broken
    cases r with
    | error f => exact .pure hnow
    | ok found =>
      refine .ite (fun hok => ?_) fun _ => .pure hnow
      exact ensures_take (v := τ.1.progress) hτ (hr found rfl hok)

/-- What a run leaves behind: a trail that ends where the run stopped, or that broke off. -/
def Finished (o : Oracle (Exact K) (Vector (Exact K) n) (Matrix (Exact K) n)) (c1 : Exact K)
    (start : Iterate (Exact K) (Vector (Exact K) n)) :
    Except (Fault (Exact K)) (Stop (Exact K) (Vector (Exact K) n)) →
    Flow σ ρ (Exact K) (Vector (Exact K) n) × Ledger (Exact K) (Vector (Exact K) n) → Prop
  | .ok stop, t => Reached o c1 start stop.final t
  | .error _, t => Broken o c1 start t

theorem ensures_pursue :
    Ensures (At ([], [])) (d.pursue o.recorded start) (Finished o c1 start) := by
  have hnow : ∀ τ : Flow σ Unit (Exact K) (Vector (Exact K) n) × _, At ([], []) τ →
      Reached o c1 start start τ := by
    intro τ hτ
    obtain ⟨htaken, hpath⟩ := Prod.mk.inj hτ
    rw [Reached, htaken, hpath]
    exact .stay start
  refine Steady.bind (steady_ofExcept _) (fun stop _ => ?_) fun _ τ hτ => (hnow τ hτ).broken
  refine .ite (fun _ => .pure hnow) fun _ => ?_
  refine .bind (.mono (.upTo (ensures_iterate hs hc ho hd hstart) _ _) hnow fun _ _ h => h)
    (fun r => ?_) fun _ _ h => h
  cases r with
  | inl t => exact .pure fun _ h => h
  | inr stop => exact .pure fun _ h => h

end Loop

section Whole
variable {K : Type} [ExactField K] {n : ℕ}
  {o : Oracle (Exact K) (Vector (Exact K) n) (Matrix (Exact K) n)} {c1 : Exact K}
  {s : LineSearch (Exact K)} {start : Iterate (Exact K) (Vector (Exact K) n)}

variable (x : Vector (Exact K) n) (state : σ)

/-- A record shows a trail, and its result is that of the end of the trail. -/
def Shows (o : Oracle (Exact K) (Vector (Exact K) n) (Matrix (Exact K) n)) (c1 : Exact K)
    (start : Iterate (Exact K) (Vector (Exact K) n))
    (record : Record σ ρ (Exact K) (Vector (Exact K) n)) : Prop :=
  ∃ steps rest z, record.flow.taken = steps ++ rest ∧
    Trail o c1 start steps record.flow.trace.toList z ∧
    ∀ outcome, record.result = .ok outcome → rest = [] ∧ outcome.value = z.value

theorem shows_close {d : Descent σ ρ (Exact K) (Vector (Exact K) n) (Matrix (Exact K) n)}
    {r : Except (Fault (Exact K)) (Stop (Exact K) (Vector (Exact K) n))}
    {t : Flow σ ρ (Exact K) (Vector (Exact K) n) × Ledger (Exact K) (Vector (Exact K) n)}
    (h : Finished o c1 start r t) : Shows o c1 start (d.close x r t.1 t.2) := by
  rw [Shows, flow_close]
  cases r with
  | ok stop =>
    refine ⟨t.1.taken, [], stop.final, (List.append_nil _).symm, h, ?_⟩
    rintro _ ⟨⟩
    exact ⟨rfl, rfl⟩
  | error f =>
    obtain ⟨steps, rest, z, htaken, htrail⟩ := h
    have hresult : (d.close x (.error f) t.1 t.2).result = .error f := rfl
    refine ⟨steps, rest, z, htaken, htrail, fun outcome ho => ?_⟩
    rw [hresult] at ho
    cases ho

theorem opened_eq_ok {d : Descent σ ρ (Exact K) (Vector (Exact K) n) (Matrix (Exact K) n)}
    (h : d.opened x = .ok (.inl start)) : start.point = x ∧
      (d.problem.differentiable n d.strategy.needsHessian).Faithful start ∧
      Scalar.isFinite start.value = true := by
  obtain ⟨-, hx, hvalue, -⟩ := opened_finite h
  obtain ⟨hpoint, hfaithful⟩ := opened_faithful hx h
  exact ⟨hpoint, hfaithful, hvalue⟩

theorem shows_run {d : Descent σ Unit (Exact K) (Vector (Exact K) n) (Matrix (Exact K) n)}
    (hs : s.check = .ok ()) (hc : s.armijo? = some c1) (hd : d.search = s.machine)
    (hstart : d.opened x = .ok (.inl start)) :
    Shows (d.problem.differentiable n d.strategy.needsHessian) c1 start (d.run x state ()) := by
  have ho := d.problem.quiet_differentiable n d.strategy.needsHessian
  have hwork : d.work (Space.size x) =
      (d.problem.differentiable n d.strategy.needsHessian).recorded := rfl
  obtain ⟨-, hfaithful, -⟩ := opened_eq_ok x hstart
  obtain ⟨f, l, -, hrun⟩ | ⟨prepared, r, t, -, hpursue, hrun⟩ := run_of_opened state () hstart
  · rw [hrun]
    exact shows_close (r := .error f) (t := (.start state () #[.prepare], l)) x
      ⟨[], [], start, rfl, .stay start⟩
  · have h := ensures_pursue hs hc ho hd hfaithful
      (.start prepared () #[.prepare], (openAt (d.work (Space.size x)) x).start.2) rfl
    rw [← hwork, hpursue] at h
    rw [hrun]
    exact shows_close x h

/-- A run goes downhill, from every start, with every strategy and with any of the searches. Only a
run whose start is finite accepts iterates. Every iterate comes with its own value and gradient and
follows from the one before it by a step of positive length along a direction of descent, which
decreases the value sufficiently; and a result lies below the start by at least the share `c1` of
the sum of the first-order changes. -/
theorem run_descends (p : Problem (Exact K) (Vector (Exact K) n) (Matrix (Exact K) n))
    (strategy : Strategy σ (Exact K) (Vector (Exact K) n) (Matrix (Exact K) n))
    (config : Config (Exact K)) (hs : s.check = .ok ()) (hc : s.armijo? = some c1) :
    let d : Descent σ Unit (Exact K) (Vector (Exact K) n) (Matrix (Exact K) n) :=
      ⟨p, strategy, s.machine, config⟩
    let record := d.run x state ()
    let path := record.flow.trace.toList
    let steps := record.flow.taken
    (path ≠ [] → ∃ start, d.opened x = .ok (.inl start)) ∧
    ∀ start, d.opened x = .ok (.inl start) →
      start.point = x ∧
      (∀ y ∈ start :: path, p.value y.point = .ok y.value ∧
        (p.hasGradient = true → p.gradient y.point = .ok y.gradient)) ∧
      (∀ (k : ℕ) (x y : Iterate (Exact K) (Vector (Exact K) n)),
        (start :: path)[k]? = some x → path[k]? = some y → ∃ alpha direction,
        steps[k]? = some (alpha, direction) ∧ 0 < alpha ∧
        y.point = x.point + alpha * direction ∧ dot x.gradient direction < 0 ∧
        y.value < x.value ∧ y.value ≤ x.value + c1 * alpha * dot x.gradient direction) ∧
      ∀ outcome, record.result = .ok outcome → steps.length = path.length ∧
        outcome.value ≤ start.value + c1 * (firstOrder (start :: path) steps).sum := by
  intro d record path steps
  refine ⟨fun hpath => ?_, fun start hstart => ?_⟩
  · by_contra hnone
    refine hpath (congrArg Array.toList ?_)
    exact trace_run_of_not_opened state () fun start hstart => hnone ⟨start, hstart⟩
  obtain ⟨hpoint, hfaithful, hfinite⟩ := opened_eq_ok x hstart
  obtain ⟨taken, rest, z, hsteps, htrail, hresult⟩ := shows_run x state (d := d) hs hc rfl hstart
  obtain ⟨c, rfl, hpos⟩ := s.exists_armijo hs hc
  obtain ⟨f, hf⟩ := Exact.isFinite_iff.mp hfinite
  refine ⟨hpoint, fun y hy => ?_, fun k v w hv hw => ?_, fun outcome hout => ?_⟩
  · obtain ⟨hvalue, hgradient⟩ := htrail.faithful hfaithful y hy
    rw [Problem.valueAt_differentiable] at hvalue
    refine ⟨hvalue, fun hp => ?_⟩
    rwa [p.gradientAt_differentiable _ hp] at hgradient
  · obtain ⟨alpha, direction, htaken, hdown⟩ := htrail.downward hv hw
    have hlen : k < taken.length := by
      rw [htrail.length_eq]
      exact (List.getElem?_eq_some_iff.mp hw).1
    refine ⟨alpha, direction, ?_, hdown.admits.alpha_pos, hdown.admits.point_eq, hdown.slope_neg,
      hdown.admits.value_lt, hdown.admits.value_le⟩
    rw [← htaken, ← List.getElem?_append_left hlen]
    exact congrArg (·[k]?) hsteps
  · obtain ⟨rfl, hz⟩ := hresult outcome hout
    have htaken : steps = taken := hsteps.trans (List.append_nil _)
    obtain ⟨e, t, he, hsum, hle⟩ := htrail.value_le hpos hf
    refine ⟨(congrArg List.length htaken).trans htrail.length_eq, ?_⟩
    rw [htaken, hsum, hz, he, hf]
    exact hle

/-- The limited-memory method with the bracketing search goes from the origin to the minimum of the
bowl in two steps, both of them downhill. -/
theorem run_descends_bowl :
    let d : Descent (QuasiNewton.State (Exact ℚ) 10 (Vector (Exact ℚ) 2)) Unit (Exact ℚ)
        (Vector (Exact ℚ) 2) (Matrix (Exact ℚ) 2) :=
      ⟨LineSearch.bowl, QuasiNewton.strategy .standard,
        (LineSearch.moreThuente (.standard 0.9)).machine, .standard⟩
    let record := d.run #v[0, 0] QuasiNewton.fresh ()
    let start : Iterate (Exact ℚ) (Vector (Exact ℚ) 2) := ⟨#v[0, 0], 0, #v[-3, -3]⟩
    record.flow.trace.toList.map Iterate.value = [-45 / 16, -3] ∧
      ∀ outcome, record.result = .ok outcome → outcome.value ≤ start.value +
        1e-4 * (firstOrder (start :: record.flow.trace.toList) record.flow.taken).sum := by
  intro d record start
  have hcheck : (LineSearch.moreThuente (.standard (0.9 : Exact ℚ))).check = .ok () := by
    decide +kernel
  have hstart : d.opened #v[0, 0] = .ok (.inl start) := by decide +kernel
  have hdescends :=
    (run_descends #v[0, 0] QuasiNewton.fresh LineSearch.bowl (QuasiNewton.strategy .standard)
      .standard hcheck rfl).2 start hstart
  have hvalues : record.flow.trace.toList.map Iterate.value = [-45 / 16, -3] := by decide +kernel
  exact ⟨hvalues, fun outcome hout => (hdescends.2.2.2 outcome hout).2⟩

end Whole

end Descent

end Downhill
