import Downhill.Proofs.Descent.Resume
import Downhill.Proofs.Solver.Equipped
import Downhill.Proofs.Solver.Reuse

/-! Calls that are split and resumed. A Newton method carries nothing from one iteration to the next
but the iterate, so a call that its cap has stopped can be taken up with another call, from the
point that it handed back. And a call from a point at which any of the methods has converged does
nothing. -/
namespace Downhill
variable {α : Type} [Scalar α] {n : ℕ}

namespace Problem
variable (p : Problem α (Vector α n) (Matrix α n))

/-- The Hessian of a run is the same on every account, whether it is the problem's own or comes from
differences. -/
theorem lockstep_hessian (x : Vector α n) :
    Lockstep Unrelated ((p.work n true).hessian x) ((p.work n true).hessian x) := by
  have hvalue : ∀ v, Tells Unrelated ((p.counted n).value v) (p.value v) := fun _ =>
    .after (fun _ _ _ => ⟨rfl, trivial⟩) (.ofExcept _)
  have hgradient : ∀ v, Tells Unrelated ((p.counted n).gradient v) (p.gradient v) := fun v => by
    rw [counted_gradient]
    exact .after (fun _ _ _ => ⟨rfl, trivial⟩) (.ofExcept _)
  refine .bind (fun _ _ _ => ⟨rfl, trivial⟩) fun _ => ?_
  change Lockstep Unrelated ((p.differentiable n true).hessian x)
    ((p.differentiable n true).hessian x)
  by_cases h : p.hasHessian = true
  · rw [hessian_differentiable_of_some p h, counted_hessian]
    exact .bind (fun _ _ _ => ⟨rfl, trivial⟩) fun _ => Eval.lockstep_ofExcept _
  · rw [hessian_differentiable_of_none p (Bool.eq_false_iff.mpr h)]
    split_ifs
    · exact (Difference.tells_hessianOfGradientAt _ x hgradient).lockstep
    · exact (Difference.tells_hessianAt _ x hvalue).lockstep

/-- Whether a start is accepted does not depend on its entries. -/
theorem accept_of_accept {p : Problem α (Vector α n) (Matrix α n)} {x : Vector α n}
    (h : p.accept x = .ok x) (y : Vector α n) : p.accept y = .ok y := by
  unfold accept at h ⊢
  cases hk : p.dimension with
  | none => rfl
  | some k =>
    by_cases hfits : (n : ℤ) = k
    · exact congrArg (Except.mapError Fault.dimension) (if_pos hfits)
    · have hrefused : Space.accept x (some k) = .error (.wrongLength n k) := if_neg hfits
      rw [hk, hrefused] at h
      cases h

end Problem

theorem Newton.memoryless (s : Newton α) (p : Problem α (Vector α n) (Matrix α n)) :
    (s.strategy : Strategy (State α) α (Vector α n) (Matrix α n)).Memoryless (p.work n true) :=
  ⟨fun _ st => ⟨st, rfl⟩, s.lockstep (fun _ _ _ _ => ⟨rfl, trivial⟩) p.lockstep_hessian⟩

/-- A strategy that begins at one vector begins at every other of the same length. -/
theorem Plan.exists_prepared (plan : Plan α) {o : Oracle α (Vector α n) (Matrix α n)}
    {start : Iterate α (Vector α n)} {prepared : _}
    (h : (plan.strategist : Strategist α (Vector α n) (Matrix α n)).strategy.prepare o start
      plan.strategist.fresh = .ok prepared) (again : Iterate α (Vector α n)) :
    ∃ prepared, (plan.strategist : Strategist α (Vector α n) (Matrix α n)).strategy.prepare o again
      plan.strategist.fresh = .ok prepared := by
  cases plan with
  | newton s => exact ⟨_, rfl⟩
  | conjugateGradient s => exact ⟨_, rfl⟩
  | quasiNewton s => exact ⟨prepared, h⟩

namespace Method
variable {m : Method α} {c c' : Choices α (Vector α n) (Matrix α n)}
  {p : Problem α (Vector α n) (Matrix α n)} {x : Vector α n}
  {r : Outcome α (Vector α n)}

/-- A call that returned was made with settings that are accepted, from a start that fits, and is
the run of its plan. -/
theorem exists_run_of_ok (h : (m.minimize c p x).result = .ok r) :
    ∃ config plan default, m.equip c = .ok (config, plan, default) ∧ p.accept x = .ok x := by
  rcases hequip : m.equip c with f | ⟨config, plan, default⟩
  · rw [minimize, hequip] at h
    cases h
  rcases haccept : p.accept x with f | y
  · obtain ⟨f, hf⟩ := minimize_of_refused (m := m) (c := c) haccept
    cases hf.symm.trans h
  · obtain rfl := Descent.eq_of_accept haccept
    exact ⟨config, plan, default, rfl, rfl⟩

/-- Other settings with the same tolerance are accepted, too. -/
theorem equip_of_equip {config : Config α} {plan : Plan α} {default : LineSearch α}
    (h : m.equip c = .ok (config, plan, default)) (hcap : 0 ≤ c'.maxIters)
    (htolerance : c'.tolerance = c.tolerance) :
    m.equip c' = .ok (⟨c'.maxIters.toNat, config.tolerance, c'.history⟩, plan, default) := by
  obtain ⟨hconfig, hplan, hdefault⟩ := eq_of_equip h
  have hmake : Config.make c'.maxIters c'.tolerance c'.history =
      .ok ⟨c'.maxIters.toNat, config.tolerance, c'.history⟩ := by
    unfold Config.make at hconfig ⊢
    rw [htolerance]
    split_ifs at hconfig with hneg hpos
    cases hconfig
    rw [if_neg hcap.not_gt, if_pos hpos]
  rw [equip, hmake, hplan, hdefault]
  rfl

/-- A call with a search of the library is a run with it. -/
theorem minimize_eq_library {config : Config α} {plan : Plan α} {default s : LineSearch α}
    (hm : m.equip c = .ok (config, plan, default)) (hx : p.accept x = .ok x)
    (hguide : c.guide default = s.searcher) :
    (m.minimize c p x).result =
      ((plan.descent p s.searcher config).run x plan.strategist.fresh ()).result := by
  have hrun := (minimize_eq_run hm hx).1
  rw [hguide] at hrun
  exact hrun

omit [Scalar α] in
theorem exists_library [Scalar α] (default : LineSearch α)
    (hsearch : c.search = none ∨ ∃ s : LineSearch α, c.search = some s.searcher) :
    ∃ s : LineSearch α, c.guide default = s.searcher := by
  obtain hnone | ⟨s, hs⟩ := hsearch
  · exact ⟨default, by rw [Choices.guide, hnone]; rfl⟩
  · exact ⟨s, by rw [Choices.guide, hs]; rfl⟩

/-- A call of a Newton method that its cap has stopped can be taken up where it stands. -/
theorem ending_resumed (s : Newton α) (hp : p.converged = gradientTest)
    (hsearch : c.search = none ∨ ∃ s : LineSearch α, c.search = some s.searcher) {a : ℕ}
    (hr : ((newton s).minimize { c with maxIters := a } p x).result = .ok r)
    (hcap : r.status = .iterationCap) (b : ℕ) :
    ((newton s).minimize { c with maxIters := b } p r.point).result.map (·.ending a) =
      ((newton s).minimize { c with maxIters := (a + b : ℕ) } p x).result.map (·.ending 0) := by
  obtain ⟨config, plan, default, hequip, hx⟩ := exists_run_of_ok hr
  obtain ⟨ls, hguide⟩ := exists_library default hsearch
  obtain ⟨_, -, hplan⟩ := bind_eq_ok_iff.mp (eq_of_equip hequip).2.1
  obtain rfl : Plan.newton s = plan := Except.ok.inj hplan
  -- The three calls have the same settings but for the cap, and are runs of one descent.
  have hcapped : ∀ (cap : ℕ) (y : Vector α n), p.accept y = .ok y →
      ((newton s).minimize { c with maxIters := cap } p y).result =
        ((((Plan.newton s).descent p ls.searcher ⟨0, config.tolerance, c.history⟩).capped cap).run y
          Newton.fresh ()).result := fun cap y hy => by
    let again : Choices α (Vector α n) (Matrix α n) := { c with maxIters := cap }
    have hset : (newton s).equip again = .ok (_, .newton s, default) :=
      equip_of_equip hequip (Int.natCast_nonneg cap) rfl
    exact minimize_eq_library hset hy hguide
  rw [hcapped a x hx] at hr
  rw [hcapped b _ (Problem.accept_of_accept hx _), hcapped (a + b) x hx]
  exact Descent.ending_resumed rfl hp (s.memoryless p) hr hcap rfl b _

/-- A call from a point at which the method has converged returns at once. -/
theorem exists_converged_again (hp : p.converged = gradientTest)
    (hsearch : c.search = none ∨ ∃ s : LineSearch α, c.search = some s.searcher)
    (hr : (m.minimize c p x).result = .ok r) (hstatus : r.status = .converged)
    (hcap : 0 ≤ c'.maxIters) (htolerance : c'.tolerance = c.tolerance) :
    ∃ r', (m.minimize c' p r.point).result = .ok r' ∧ r'.status = .converged ∧
      r'.iterations = 0 ∧ r'.point = r.point ∧ r'.value = r.value ∧
      r'.gradientNorm = r.gradientNorm := by
  obtain ⟨config, plan, default, hequip, hx⟩ := exists_run_of_ok hr
  obtain ⟨ls, hguide⟩ := exists_library default hsearch
  rw [minimize_eq_library hequip hx hguide] at hr
  obtain ⟨start, prepared, y, -, hprepared, hadmits, hsmall, hpoint, hvalue, hnorm⟩ :=
    Descent.exists_converged (s := ls) rfl hp hr hstatus
  obtain ⟨again, hagain⟩ := plan.exists_prepared hprepared y
  obtain ⟨r', hrun, hends⟩ := Descent.run_of_small
    (d := plan.descent p (c'.guide default) ⟨c'.maxIters.toNat, config.tolerance, c'.history⟩)
    hp hadmits hsmall hagain (c'.guide default).fresh
  have hcall := (minimize_eq_run (equip_of_equip hequip hcap htolerance)
    (Problem.accept_of_accept hx y.point)).1
  rw [hpoint, hvalue, hnorm]
  exact ⟨r', hcall.trans hrun, hends⟩

/-- Newton methods can be split and resumed, for every problem with the ordinary end test, with the
default search or one of the library, from every start. Where a call with a cap of `a` is stopped by
its cap, the call with a cap of `b` from the point that it handed back ends like the call with a cap
of `a + b` from the start: with the same point, value, gradient norm, status and message after `a`
steps less, or with the same fault. And a call of any method from a point at which the method has
converged, with any cap that is accepted and the same tolerance, converges there without a step. -/
theorem minimize_resumes (hp : p.converged = gradientTest)
    (hsearch : c.search = none ∨ ∃ s : LineSearch α, c.search = some s.searcher)
    (x : Vector α n) :
    (∀ (s : Newton α) (a b : ℕ) (r : Outcome α (Vector α n)),
      ((newton s).minimize { c with maxIters := a } p x).result = .ok r →
      r.status = .iterationCap →
      ((newton s).minimize { c with maxIters := b } p r.point).result.map (·.ending a) =
        ((newton s).minimize { c with maxIters := (a + b : ℕ) } p x).result.map (·.ending 0)) ∧
    ∀ (m : Method α) (c' : Choices α (Vector α n) (Matrix α n)) (r : Outcome α (Vector α n)),
      (m.minimize c p x).result = .ok r → r.status = .converged →
      0 ≤ c'.maxIters → c'.tolerance = c.tolerance →
      ∃ r', (m.minimize c' p r.point).result = .ok r' ∧ r'.status = .converged ∧
        r'.iterations = 0 ∧ r'.point = r.point ∧ r'.value = r.value ∧
        r'.gradientNorm = r.gradientNorm :=
  ⟨fun s _ b _ hr hcap => ending_resumed s hp hsearch hr hcap b,
    fun _ _ _ hr hstatus hcap htolerance =>
      exists_converged_again hp hsearch hr hstatus hcap htolerance⟩

/-- A search that goes half of the way at most. From four the first step leads to two, and there the
cap stops the call; the second leads to one, where the gradient is small enough. -/
theorem minimize_resumes_halfway :
    let p : Problem (Exact ℚ) (Vector (Exact ℚ) 1) (Matrix (Exact ℚ) 1) :=
      Quadratic.problem ⟨#v[#v[1]], #v[0]⟩
    let halving : Backtracking (Exact ℚ) := { Backtracking.standard with alpha0 := 1 / 2 }
    let c : Choices (Exact ℚ) (Vector (Exact ℚ) 1) (Matrix (Exact ℚ) 1) :=
      ⟨1, 1, some (LineSearch.backtracking halving).searcher, false⟩
    let m : Method (Exact ℚ) := .newton .standard
    ∃ short rest long again, (m.minimize c p #v[4]).result = .ok short ∧
      short.status = .iterationCap ∧ short.point = #v[2] ∧
      (m.minimize c p #v[2]).result = .ok rest ∧
      (m.minimize { c with maxIters := 2 } p #v[4]).result = .ok long ∧
      rest.ending 1 = long.ending 0 ∧ rest.status = .converged ∧ rest.point = #v[1] ∧
      (m.minimize c p #v[1]).result = .ok again ∧ again.status = .converged ∧
      again.iterations = 0 ∧ again.value = rest.value := by
  intro p halving c m
  have hshort : (m.minimize c p #v[4]).result = .ok ⟨#v[2], 2, 2, 1, .iterationCap, .iterationCap,
      ⟨2, 2, 1⟩, []⟩ := by decide +kernel
  have hrest : (m.minimize c p #v[2]).result = .ok ⟨#v[1], 1 / 2, 1, 1, .converged, .toleranceMet,
      ⟨2, 2, 1⟩, []⟩ := by decide +kernel
  have hlong : (m.minimize { c with maxIters := 2 } p #v[4]).result = .ok ⟨#v[1], 1 / 2, 1, 2,
      .converged, .toleranceMet, ⟨3, 3, 2⟩, []⟩ := by decide +kernel
  have hsearch : c.search = none ∨ ∃ s : LineSearch (Exact ℚ), c.search = some s.searcher :=
    .inr ⟨_, rfl⟩
  have hends := (minimize_resumes rfl hsearch #v[4]).1 .standard 1 1 _ hshort rfl
  rw [show (m.minimize { c with maxIters := (1 : ℕ) } p #v[2]).result = _ from hrest,
    show (m.minimize { c with maxIters := (1 + 1 : ℕ) } p #v[4]).result = _ from hlong] at hends
  obtain ⟨again, hagain, hstatus, hiterations, -, hvalue, -⟩ :=
    (minimize_resumes rfl hsearch #v[2]).2 m c _ hrest rfl zero_le_one rfl
  exact ⟨_, _, _, again, hshort, rfl, rfl, hrest, hlong, Except.ok.inj hends, rfl, rfl, hagain,
    hstatus, hiterations, hvalue⟩

end Method

end Downhill
