import Downhill.Proofs.ConjugateGradient.Reliable
import Downhill.Proofs.Descent.Stranded
import Downhill.Proofs.Newton.Direction
import Downhill.Proofs.QuasiNewton.Reliable
import Downhill.Solver.Minimize

/-! A call of a method is a run. The settings that a call accepts give the run a strategy that can
be relied on, and the problem only has to answer. -/
namespace Downhill
variable {K : Type} [ExactField K] {n : ℕ}

open Exact

section Run
variable {α V M : Type} [Scalar α] [Space α V] [Curved α V M] {m : Method α} {c : Choices α V M}
  {config : Config α} {plan : Plan α} {default : LineSearch α} {p : Problem α V M} {x : V}

/-- The run of a call. -/
def Plan.descent (plan : Plan α) (p : Problem α V M) (guide : Searcher α V M) (config : Config α) :
    Descent (plan.strategist : Strategist α V M).State guide.State α V M :=
  ⟨p, plan.strategist.strategy, guide.search, config⟩

/-- The search of a call, in the place of a default. -/
def Choices.guide (c : Choices α V M) (default : LineSearch α) : Searcher α V M :=
  c.search.getD default.searcher

theorem Method.minimize_eq_run (hm : m.equip c = .ok (config, plan, default))
    (hx : p.accept x = .ok x) :
    let record := (plan.descent p (c.guide default) config).run x plan.strategist.fresh
      (c.guide default).fresh
    (m.minimize c p x).result = record.result ∧ (m.minimize c p x).trace = record.flow.trace := by
  intro record
  have hrun : (plan.descent p (c.guide default) config).runFrom x plan.strategist.fresh
      (c.guide default).fresh = .ok record := by
    rw [Descent.runFrom, show (plan.descent p (c.guide default) config).problem.accept x = .ok x
      from hx]
    rfl
  have hlaunch : (launch p x plan.strategist (c.guide default) config).1 = .ofRecord record := by
    rw [launch, show (Descent.mk p plan.strategist.strategy (c.guide default).search config).runFrom
      x plan.strategist.fresh (c.guide default).fresh = .ok record from hrun]
  have hreport : m.minimize c p x = (Report.ofRecord record).after (m.warning c.search) := by
    rw [Method.minimize, hm, ← hlaunch]
    rfl
  rw [hreport]
  exact ⟨rfl, rfl⟩

omit [Space α V] [Curved α V M] in
theorem Method.eq_of_equip (hm : m.equip c = .ok (config, plan, default)) :
    Config.make c.maxIters c.tolerance c.history = .ok config ∧ m.plan = .ok plan ∧
      m.defaultSearch = .ok default := by
  obtain ⟨_, hconfig, hm⟩ := bind_eq_ok_iff.mp hm
  obtain ⟨_, hplan, hm⟩ := bind_eq_ok_iff.mp hm
  obtain ⟨_, hdefault, hm⟩ := bind_eq_ok_iff.mp hm
  cases hm
  exact ⟨hconfig, hplan, hdefault⟩

theorem Config.tolerance_pos {maxIters : ℤ} {tolerance : α} {history : Bool}
    (h : Config.make maxIters tolerance history = .ok config) : 0 < config.tolerance := by
  unfold Config.make at h
  split_ifs at h with _ hpos
  cases h
  exact hpos

theorem Config.maxIters_pos {maxIters : ℤ} {tolerance : α} {history : Bool}
    (h : Config.make maxIters tolerance history = .ok config) (hcap : 1 ≤ maxIters) :
    0 < config.maxIters := by
  unfold Config.make at h
  split_ifs at h
  cases h
  exact Int.pos_iff_toNat_pos.mp hcap

end Run

theorem Method.eq_newton_of_plan {α : Type} [Scalar α] {m : Method α} {s : Newton α}
    (h : m.plan = .ok (.newton s)) : m = .newton s := by
  cases m with
  | base => cases h
  | _ =>
    obtain ⟨_, -, h⟩ := bind_eq_ok_iff.mp h
    cases h <;> rfl

/-- A start of a stated dimension is accepted. -/
theorem Problem.accept_vector {α M : Type} [Scalar α] {p : Problem α (Vector α n) M}
    (h : ∀ k, p.dimension = some k → (n : ℤ) = k) (x : Vector α n) : p.accept x = .ok x := by
  rw [accept, Space.accept_vector x p.dimension h]
  rfl

/-- The search has a first step, positive and finite, where none is asked for. -/
def LineSearch.Starts (s : LineSearch (Exact K)) : Prop :=
  ∃ first, s.firstStep? = some first ∧ 0 < first ∧ Scalar.isFinite first = true

theorem Method.starts_defaultSearch {m : Method (Exact K)} {default : LineSearch (Exact K)}
    (h : m.defaultSearch = .ok default) : default.Starts := by
  have hone : (0 : Exact K) < 1.0 ∧ Scalar.isFinite (1.0 : Exact K) = true :=
    ⟨number_lt.mpr (by norm_num), rfl⟩
  cases m <;> cases h <;> exact ⟨_, rfl, hone⟩

/-- What is known of the search of a call. -/
theorem Choices.exists_guide
    {c : Choices (Exact K) (Vector (Exact K) n) (Matrix (Exact K) n)}
    {default : LineSearch (Exact K)} {P : LineSearch (Exact K) → Prop} (h : P default)
    (hsearch : c.search = none ∨ ∃ s : LineSearch (Exact K), c.search = some s.searcher ∧ P s) :
    ∃ s : LineSearch (Exact K), c.guide default = s.searcher ∧ P s := by
  obtain hnone | ⟨s, hs, hP⟩ := hsearch
  · exact ⟨default, by rw [guide, hnone]; rfl, h⟩
  · exact ⟨s, by rw [guide, hs]; rfl, hP⟩

namespace Plan
variable {plan : Plan (Exact K)} {m : Method (Exact K)}
  {p : Problem (Exact K) (Vector (Exact K) n) (Matrix (Exact K) n)}

/-- What a run keeps of the state of a strategy. -/
def Invariant : (plan : Plan (Exact K)) →
    (plan.strategist : Strategist (Exact K) (Vector (Exact K) n) (Matrix (Exact K) n)).State → Prop
  | newton _ => fun _ => True
  | conjugateGradient _ => ConjugateGradient.Sensible
  | quasiNewton _ => QuasiNewton.Ringed

/-- The state of a strategy after a reset. -/
def Cleared : (plan : Plan (Exact K)) →
    (plan.strategist : Strategist (Exact K) (Vector (Exact K) n) (Matrix (Exact K) n)).State → Prop
  | newton _ => fun _ => True
  | conjugateGradient _ => fun st => st.memory = none
  | quasiNewton _ => QuasiNewton.Emptied

/-- The fault of a stranded run. Newton directions leave the first step to the search, which refuses
the direction; the others divide by the length of the gradient. -/
def stallFault : Plan (Exact K) → Fault (Exact K)
  | newton _ => .notDescent 0
  | _ => .zeroDivision

theorem reliable [SoundRoot K] (plan : Plan (Exact K)) (hn : 0 < n) (hp : p.Total) :
    let s : Strategist (Exact K) (Vector (Exact K) n) (Matrix (Exact K) n) := plan.strategist
    s.strategy.Reliable (p.work n s.strategy.needsHessian) plan.Invariant := by
  cases plan with
  | newton s => exact s.reliable hn hp.replies_hessian
  | conjugateGradient s => exact s.reliable _
  | quasiNewton s => exact s.reliable _

/-- A new strategist is ready for every start. -/
theorem prepares (hplan : m.plan = .ok plan)
    (hthreshold : ∀ s, m = .quasiNewton s → 0 ≤ s.threshold) (hn : 0 < n)
    (o : Oracle (Exact K) (Vector (Exact K) n) (Matrix (Exact K) n))
    (start : Iterate (Exact K) (Vector (Exact K) n)) :
    let s : Strategist (Exact K) (Vector (Exact K) n) (Matrix (Exact K) n) := plan.strategist
    ∃ prepared, s.strategy.prepare o start s.fresh = .ok prepared ∧ plan.Invariant prepared := by
  cases m with
  | base => cases hplan
  | newton s =>
    obtain ⟨_, -, hplan⟩ := bind_eq_ok_iff.mp hplan
    cases hplan
    exact ⟨_, rfl, trivial⟩
  | conjugateGradient rule interval =>
    obtain ⟨s, -, hplan⟩ := bind_eq_ok_iff.mp hplan
    cases hplan
    exact ⟨_, rfl, ConjugateGradient.sensible_of_none rfl⟩
  | quasiNewton s =>
    obtain ⟨_, hcheck, hplan⟩ := bind_eq_ok_iff.mp hplan
    cases hplan
    exact s.exists_begin hcheck (hthreshold s rfl) hn start.point

theorem stalls [SoundRoot K] (plan : Plan (Exact K)) (hn : 0 < n)
    (hshift : ∀ s, plan = .newton s →
      Scalar.isFinite s.beta = true ∧ Scalar.isFinite s.growth = true)
    (hp : ∀ v, Space.finite v = true →
      Replies ((p.work n true).hessian v) fun m => m.allFinite = true) :
    let s : Strategist (Exact K) (Vector (Exact K) n) (Matrix (Exact K) n) := plan.strategist
    s.strategy.Stalls (p.work n s.strategy.needsHessian) plan.Invariant plan.Cleared
      plan.stallFault := by
  cases plan with
  | newton s => exact s.stalls hn (hshift s rfl).1 (hshift s rfl).2 hp
  | conjugateGradient s => exact s.stalls _
  | quasiNewton s => exact s.stalls _

end Plan

/-- The run of a call on a problem that raises no fault is sturdy. -/
theorem Method.exists_sturdy [SoundRoot K] {m : Method (Exact K)}
    {c : Choices (Exact K) (Vector (Exact K) n) (Matrix (Exact K) n)} {config : Config (Exact K)}
    {plan : Plan (Exact K)} {default : LineSearch (Exact K)}
    {p : Problem (Exact K) (Vector (Exact K) n) (Matrix (Exact K) n)}
    (hm : m.equip c = .ok (config, plan, default))
    (hsearch : c.search = none ∨ ∃ s : LineSearch (Exact K), c.search = some s.searcher ∧ s.Starts)
    (hn : 0 < n) (hp : p.Total)
    (htest : ∀ x y g tolerance, ∃ done, p.converged x y g tolerance = .ok done) :
    ∃ (s : LineSearch (Exact K)) (first : Exact K), c.guide default = s.searcher ∧
      let d := plan.descent p s.searcher config
      d.Sturdy (d.work n) plan.Invariant s first := by
  obtain ⟨-, -, hdefault⟩ := eq_of_equip hm
  obtain ⟨s, hguide, first, hfirst, hpos, hfin⟩ :=
    Choices.exists_guide (starts_defaultSearch hdefault) hsearch
  exact ⟨s, first, hguide, hp.responds _, plan.reliable hn hp, rfl, hfirst, hpos, hfin,
    fun x y => htest x.point y.point y.gradient config.tolerance⟩

/-- The gradient zero meets the ordinary end test. -/
theorem gradientTest_zero [SoundRoot K] {tolerance : Exact K} (h : 0 < tolerance)
    (x y : Vector (Exact K) n) : gradientTest x y (lift (0 : Fin n → K)) tolerance = .ok true := by
  have hlarger : 0 < Scalar.larger tolerance leastTolerance := by
    unfold Scalar.larger
    split_ifs
    · exact number_lt.mpr (by norm_num)
    · exact h
  have hle : number (0 : K) ≤ Scalar.larger tolerance leastTolerance := by
    revert hlarger
    cases Scalar.larger tolerance leastTolerance with
    | number t => exact fun ht => number_le.mpr (number_lt.mp ht).le
    | infinity s => exact id
    | undefined => exact id
  rw [gradientTest, withinTolerance, Space.norm_vector, norm_lift_zero, decide_eq_true hle]

end Downhill
