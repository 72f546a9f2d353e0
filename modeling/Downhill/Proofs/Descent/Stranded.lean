import Downhill.Proofs.Descent.Sturdy
import Downhill.Proofs.Descent.Verdicts

/-! When a run is broken off. A sturdy run ends with a status unless it is stranded at an iterate
where the gradient is zero and the end test says that it is not done; then it raises the one fault
that is left. -/
namespace Downhill
variable {K : Type} [ExactField K] {n : ℕ} {σ ρ : Type} {I J : σ → Prop} {f : Fault (Exact K)}
  {first : Exact K} {ls : LineSearch (Exact K)}

open Exact

/-- No end test was met and there are steps left, but the gradient is zero. -/
def Descent.Stranded (d : Descent σ ρ (Exact K) (Vector (Exact K) n) (Matrix (Exact K) n))
    (start : Iterate (Exact K) (Vector (Exact K) n))
    (path : List (Iterate (Exact K) (Vector (Exact K) n))) : Prop :=
  (∀ r ∈ d.tests start path, r = .ok false) ∧ path.length < d.config.maxIters ∧
    (path.getLastD start).gradient = lift 0

namespace Scene
variable {s : Scene σ Unit (Exact K) (Vector (Exact K) n) (Matrix (Exact K) n)}
  {steps : ℕ} {u : Progress (Exact K) (Vector (Exact K) n)}

/-- A run that ends is not stranded, and one that is broken off is. -/
def Outlives (s : Scene σ Unit (Exact K) (Vector (Exact K) n) (Matrix (Exact K) n))
    (f : Fault (Exact K)) {β : Type} : Except (Fault (Exact K)) β →
    Flow σ Unit (Exact K) (Vector (Exact K) n) × Ledger (Exact K) (Vector (Exact K) n) → Prop
  | .ok _, τ => ¬ s.descent.Stranded s.start τ.1.trace.toList
  | .error e, τ => e = f ∧ s.descent.Stranded s.start τ.1.trace.toList

/-- The run stands at a finite iterate after this many steps, and no test was met. -/
def Bears (s : Scene σ Unit (Exact K) (Vector (Exact K) n) (Matrix (Exact K) n)) (I : σ → Prop)
    (steps : ℕ) (u : Progress (Exact K) (Vector (Exact K) n))
    (τ : Flow σ Unit (Exact K) (Vector (Exact K) n) × Ledger (Exact K) (Vector (Exact K) n)) :
    Prop :=
  s.Travels steps u τ ∧ Descent.Goes I u τ

/-- What has become of a round. -/
abbrev Borne (s : Scene σ Unit (Exact K) (Vector (Exact K) n) (Matrix (Exact K) n)) (I : σ → Prop)
    (f : Fault (Exact K)) (steps : ℕ) :
    Except (Fault (Exact K)) (Progress (Exact K) (Vector (Exact K) n) ⊕
      Stop (Exact K) (Vector (Exact K) n)) →
    Flow σ Unit (Exact K) (Vector (Exact K) n) × Ledger (Exact K) (Vector (Exact K) n) → Prop :=
  Rounded (s.Bears I (steps + 1)) (fun stop => s.Outlives f (.ok stop))
    fun e => s.Outlives f (.error e : Except _ Unit)

variable (hd : s.descent.Sturdy s.oracle I ls first)
include hd

/-- A run that is over after a gradient other than zero met its test, or keeps the gradient. -/
theorem ensures_borne_of_ne_zero (hsteps : steps < s.descent.config.maxIters) :
    Ensures (fun τ => u.current.gradient ≠ lift 0 ∧ s.Bears I steps u τ)
      (s.descent.iterate s.oracle u) (s.Borne I f steps) := by
  refine .of_fact fun hne => ?_
  rintro τ ⟨htravels, hkeeps, -, g, hg⟩
  have hg0 : g ≠ 0 := by
    rintro rfl
    exact hne hg
  have hgoes := hd.surely_iterate u hg0 hg τ ⟨hkeeps, rfl⟩
  have hround := ensures_round hsteps u τ htravels
  obtain ⟨path, -, -, -, hnoted⟩ := htravels
  have hturned := ensures_iterate u τ hnoted
  have hlast : u.current = path.getLastD s.start := hnoted.iterate
  rcases hr : ((s.descent.iterate s.oracle u).run.run τ).1 with e | next | stop <;>
    rw [hr] at hgoes hround hturned
  · exact hgoes.elim
  · exact ⟨hround, hgoes next rfl⟩
  rintro ⟨htests, -, hzero⟩
  obtain ⟨y, -, hverdict, events, hled⟩ | ⟨p, status, message, -, -, -, events, hled⟩ := hturned
  · rw [hled.trace, Descent.tests_snoc, ← hlast, hverdict] at htests
    cases htests (.ok true) (by simp)
  · rw [hled.trace, ← hlast] at hzero
    exact hne hzero

variable (hstalls : ∀ x y, s.descent.verdict x y = .ok false → y.gradient = lift 0 →
  s.descent.strategy.Stalls s.oracle I J f)
include hstalls

/-- At a gradient of zero that the test does not accept the run is stranded. -/
theorem ensures_borne_of_zero (hsteps : steps < s.descent.config.maxIters) :
    Ensures (fun τ => u.current.gradient = lift 0 ∧ s.Bears I steps u τ)
      (s.descent.iterate s.oracle u) (s.Borne I f steps) := by
  refine .of_fact fun hzero => ?_
  rintro τ ⟨⟨path, rfl, -, htests, hnoted⟩, hkeeps, hfin, -⟩
  have hlast : u.current = path.getLastD s.start := hnoted.iterate
  have hverdict := htests _ (List.mem_of_getLast? Descent.getLast?_tests)
  have hstall := hstalls _ _ hverdict (hlast ▸ hzero)
  have hraises := hd.ensures_iterate_zero hstall u hfin hzero τ ⟨hkeeps, rfl⟩
  obtain ⟨events, hled⟩ := hnoted
  rcases hr : ((s.descent.iterate s.oracle u).run.run τ).1 with e | r <;> rw [hr] at hraises
  · refine ⟨hraises.1, ?_⟩
    rw [hraises.2, hled.trace]
    exact ⟨htests, hsteps, hlast ▸ hzero⟩
  · exact hraises.elim

theorem ensures_borne (hsteps : steps < s.descent.config.maxIters)
    (u : Progress (Exact K) (Vector (Exact K) n)) :
    Ensures (s.Bears I steps u) (s.descent.iterate s.oracle u) (s.Borne I f steps) := by
  intro τ hτ
  by_cases hzero : u.current.gradient = lift 0
  · exact ensures_borne_of_zero hd hstalls hsteps τ ⟨hzero, hτ⟩
  · exact ensures_borne_of_ne_zero hd hsteps τ ⟨hzero, hτ⟩

theorem ensures_outlives (hfin : Space.finite s.start.point = true) {g : Fin n → K}
    (hg : s.start.gradient = lift g) :
    Ensures (fun τ => s.Noted (.ready s.start) [] τ ∧ I τ.1.strategy)
      (s.descent.pursue s.oracle s.start) (s.Outlives f) := by
  obtain ⟨done, hdone⟩ := hd.decides s.start s.start
  refine Act.ensures_ofExcept_bind hdone ?_
  have hverdict : s.descent.tests s.start [] = [.ok done] := congrArg (fun r => [r]) hdone
  cases done with
  | true =>
    refine .pure fun τ hτ hstranded => ?_
    obtain ⟨events, hled⟩ := hτ.1
    obtain ⟨htests, -⟩ := hstranded
    rw [hled.trace, hverdict] at htests
    cases htests (.ok true) List.mem_cons_self
  | false =>
    have hbegun : ∀ τ, s.Noted (.ready s.start) [] τ ∧ I τ.1.strategy →
        s.Bears I 0 ⟨s.start, 0⟩ τ :=
      fun τ hτ => ⟨⟨[], rfl, rfl, by simp [hverdict], hτ.1⟩, hτ.2, hfin, g, hg⟩
    have hloop := Ensures.upTo_counted (I := s.Bears I)
      (fun _ hk => ensures_borne hd hstalls hk) ⟨s.start, 0⟩
    refine .bind (hloop.mono hbegun fun _ _ h => h) (fun r => ?_) fun _ _ h => h
    cases r with
    | inr stop => exact .pure fun _ h => h
    | inl u =>
      refine .pure ?_
      rintro τ ⟨⟨path, hlength, -, -, events, hled⟩, -⟩ ⟨-, hless, -⟩
      rw [hled.trace, hlength] at hless
      exact hless.false

end Scene

namespace Descent
variable {d : Descent σ Unit (Exact K) (Vector (Exact K) n) (Matrix (Exact K) n)}
  {x : Vector (Exact K) n} {state : σ}

/-- Where every question is answered, a start is open or ends the run. -/
theorem exists_opened (h : (d.work n).Responds) : ∃ r, d.opened x = .ok r := by
  have hopen : Replies (openAt (d.work n) x) fun _ => True := by
    refine .ite (fun _ => .bind (h.value x) fun _ _ => .bind (h.gradient x) fun _ _ => ?_)
      fun _ => .pure trivial
    exact .ite (fun _ => .pure trivial) fun _ => .pure trivial
  obtain ⟨r, l, hr, -⟩ := hopen.exists_answer {}
  exact ⟨r, congrArg Prod.fst hr⟩

/-- A sturdy run returns an outcome and is not stranded, or it is stranded and raises the fault. -/
theorem run_cases (hd : d.Sturdy (d.work n) I ls first)
    (hstalls : ∀ a b, d.verdict a b = .ok false → b.gradient = lift 0 →
      d.strategy.Stalls (d.work n) I J f)
    (hprepare : ∀ start, ∃ prepared,
      d.strategy.prepare (d.work n) start state = .ok prepared ∧ I prepared) :
    let record := d.run x state ()
    (∃ outcome, record.result = .ok outcome ∧ ∀ start, d.opened x = .ok (.inl start) →
      ¬ d.Stranded start record.flow.trace.toList) ∨
    ∃ start, d.opened x = .ok (.inl start) ∧ record.result = .error f ∧
      d.Stranded start record.flow.trace.toList := by
  intro record
  obtain ⟨start | stop, hstart⟩ := exists_opened (x := x) hd.responds
  · obtain ⟨prepared, hready, hI⟩ := hprepare start
    obtain ⟨e, l, hrefused, -⟩ | ⟨prepared', r, t, hready', hpursue, hrun⟩ :=
      run_of_opened state () hstart
    · cases hready.symm.trans hrefused
    obtain rfl := Except.ok.inj (hready.symm.trans hready')
    obtain ⟨hpoint, hfin, -, hgradient⟩ := opened_finite hstart
    obtain ⟨g, hg⟩ := exists_lift hgradient
    let s : Scene σ Unit (Exact K) (Vector (Exact K) n) (Matrix (Exact K) n) :=
      ⟨d, d.work n, (.start prepared () #[.prepare], (openAt (d.work n) x).start.2), start⟩
    have hover := Scene.ensures_outlives (s := s) hd hstalls (hpoint ▸ hfin) hg s.begun
      ⟨⟨[], .begin, trivial, rfl, rfl, rfl⟩, hI⟩
    rw [show (d.pursue (d.work n) start).run.run s.begun = (r, t) from hpursue] at hover
    have hflow : record.flow = t.1 := by
      rw [show record = _ from hrun, flow_close]
    rw [hflow]
    cases r with
    | ok stop =>
      refine .inl ⟨_, congrArg Record.result hrun, fun start' hstart' => ?_⟩
      obtain rfl := Sum.inl.inj (Except.ok.inj (hstart.symm.trans hstart'))
      exact hover
    | error e =>
      obtain ⟨rfl, hstranded⟩ := hover
      exact .inr ⟨start, hstart, congrArg Record.result hrun, hstranded⟩
  · obtain ⟨l, hrun⟩ := run_of_stop state () hstart
    refine .inl ⟨_, congrArg Record.result hrun, fun start hstart' => ?_⟩
    cases hstart.symm.trans hstart'

end Descent

end Downhill
