import Downhill.Problem.Quadratic
import Downhill.Proofs.Exact.Vector
import Downhill.Proofs.LineSearch.Backtracking
import Downhill.Proofs.LineSearch.Bisection
import Downhill.Proofs.LineSearch.MoreThuente.Contract

/-! The contract of the family of searches, over vectors of exact values. A caller hands over a ray
with the value at its start; what comes back is a step that may be taken, or the start. -/
namespace Downhill
variable {K M : Type} [ExactField K] {n : ℕ}

open Exact

theorem Ray.along_zero {r : Ray (Exact K) (Vector (Exact K) n)} {m : K}
    (h : Space.inner r.start.gradient r.direction = number m) : r.along 0 = r.start.point := by
  obtain ⟨_, d, -, hd, -⟩ := exists_of_dot_eq h
  rw [Ray.along, hd]
  exact add_number_zero_mul _ d

namespace LineSearch
variable {o : Oracle (Exact K) (Vector (Exact K) n) M} {s : LineSearch (Exact K)} {c1 : Exact K}

theorem ensures_search (hs : s.check = .ok ()) (hc : s.armijo? = some c1) (ho : o.Quiet)
    (r : Ray (Exact K) (Vector (Exact K) n)) (asked : Option (Exact K)) (before : ℕ × ℕ)
    (hstart : o.valueAt r.start.point = .ok r.start.value) :
    Ensures (fun l => l.asked = before) (s.search o.recorded r asked)
      (Answered fun step l => step.Meets o r c1 s.curvature? before l) := by
  cases s with
  | base => cases hc
  | backtracking s =>
    cases hc
    exact Backtracking.ensures_search hs ho r asked before
  | cubic s =>
    cases hc
    exact CubicBacktracking.ensures_search hs ho r asked before
  | bisection s =>
    cases hc
    exact Bisection.ensures_search ho r asked before
  | moreThuente s =>
    cases hc
    exact MoreThuente.ensures_search hs ho r asked before hstart fun m hm => r.along_zero hm

theorem exists_armijo (hs : s.check = .ok ()) (hc : s.armijo? = some c1) :
    ∃ c, c1 = number c ∧ 0 < c := by
  have key : 0 < c1 ∧ c1 < 1 := by
    cases s <;> cases hc
    · exact (Backtracking.check_eq_ok hs).1
    · exact (CubicBacktracking.check_eq_ok hs).1
    · exact (Bisection.check_eq_ok hs).1
    · exact (MoreThuente.check_eq_ok hs).1.1
  obtain ⟨c, hc, hpos, -⟩ := exists_of_lt_lt key.1 key.2
  exact ⟨c, hc, hpos⟩

theorem ensures_descending (r : Ray (Exact K) (Vector (Exact K) n)) (asked : Option (Exact K)) :
    Ensures (fun _ => True) (s.search o r asked)
      (Answered fun _ _ => Space.inner r.start.gradient r.direction < 0) := by
  cases s with
  | base => exact .throw fun _ _ => trivial
  | backtracking s => exact ensures_prepared fun _ hneg _ _ => .known hneg
  | cubic s => exact ensures_prepared fun _ hneg _ _ => .known hneg
  | bisection s => exact ensures_prepared fun _ hneg _ _ => .known hneg
  | moreThuente s => exact ensures_prepared fun _ hneg _ _ => .known hneg

variable {p : Problem (Exact K) (Vector (Exact K) n) M} {r : Ray (Exact K) (Vector (Exact K) n)}
  {asked : Option (Exact K)} {l l' : Ledger (Exact K) (Vector (Exact K) n)}
  {step : Step (Exact K) (Vector (Exact K) n)}

/-- What a call of a search with accepted parameters returns, on any problem and from any start
with its value. With success the step leads forward along the direction to a point with its own
value and gradient, where the value has decreased, and sufficiently; without success the step is
zero and the start is handed back. The counts are those of the requests, and a message that claims
a curvature condition is right. -/
theorem search_contract (hs : s.check = .ok ()) (hc : s.armijo? = some c1)
    (hstart : p.value r.start.point = .ok r.start.value)
    (h : (s.search p.oracle.recorded r asked).perform l = (.ok step, l')) :
    (step.success = true →
      0 < step.alpha ∧
      step.reached.point = r.start.point + step.alpha * r.direction ∧
      p.value step.reached.point = .ok step.reached.value ∧
      p.gradient step.reached.point = .ok step.reached.gradient ∧
      step.reached.value < r.start.value ∧
      step.reached.value ≤ r.start.value + c1 * step.alpha * dot r.start.gradient r.direction) ∧
    (step.success = false → step.alpha = 0 ∧ step.reached = r.start) ∧
    (l'.valuePoints.length = l.valuePoints.length + step.values ∧
      l'.gradientPoints.length = l.gradientPoints.length + step.gradients) ∧
    (step.message = .strongWolfe → ∃ c2, s.curvature? = some c2 ∧
      Scalar.abs (dot step.reached.gradient r.direction) ≤
        c2 * Scalar.abs (dot r.start.gradient r.direction)) ∧
    (step.message = .wolfe → ∃ c2, s.curvature? = some c2 ∧
      c2 * dot r.start.gradient r.direction ≤ dot step.reached.gradient r.direction) := by
  have hmeets := ensures_search hs hc p.quiet_oracle r asked l.asked hstart l rfl
  have hrun : (s.search p.oracle.recorded r asked).run.run l = (.ok step, l') := h
  rw [hrun] at hmeets
  obtain ⟨hvalues, hgradients⟩ := Prod.mk.inj hmeets.counted
  refine ⟨fun hok => ?_, hmeets.refused, ⟨hvalues, hgradients⟩, hmeets.strongWolfe, hmeets.wolfe⟩
  obtain ⟨hpos, hpoint, hvalue, hgradient, hlt, hle⟩ := hmeets.taken hok
  exact ⟨hpos, hpoint, hvalue, hgradient, hlt, hle⟩

/-- The problem `x² + xy + y² - 3x - 3y`, with its minimum `-3` at `(1, 1)`. -/
def bowl : Problem (Exact ℚ) (Vector (Exact ℚ) 2) (Matrix (Exact ℚ) 2) :=
  Quadratic.problem ⟨#v[#v[2, 1], #v[1, 2]], #v[3, 3]⟩

/-- From the origin along the diagonal the bracketing search overshoots, interpolates and finds the
minimum. -/
theorem search_contract_bowl :
    let s : LineSearch (Exact ℚ) := .moreThuente (.standard 0.9)
    let r : Ray (Exact ℚ) (Vector (Exact ℚ) 2) := ⟨⟨#v[0, 0], 0, #v[-3, -3]⟩, #v[3, 3]⟩
    let step : Step (Exact ℚ) (Vector (Exact ℚ) 2) :=
      ⟨number (1 / 3), ⟨#v[1, 1], -3, #v[0, 0]⟩, 2, 2, true, .strongWolfe⟩
    ∃ l, (s.search bowl.oracle.recorded r none).perform {} = (.ok step, l) ∧
      bowl.value step.reached.point = .ok step.reached.value ∧
      step.reached.value < r.start.value ∧ l.valuePoints.length = 2 := by
  intro s r step
  have hrun : ((s.search bowl.oracle.recorded r none).perform {}).1 = .ok step := by
    decide +kernel
  have hstart : bowl.value r.start.point = .ok r.start.value := by decide +kernel
  have hcheck : s.check = .ok () := by decide +kernel
  obtain ⟨htaken, -, ⟨hvalues, -⟩, -, -⟩ :=
    search_contract hcheck rfl hstart (Prod.ext hrun rfl)
  obtain ⟨-, -, hvalue, -, hlt, -⟩ := htaken rfl
  exact ⟨_, Prod.ext hrun rfl, hvalue, hlt, hvalues⟩

end LineSearch

end Downhill
