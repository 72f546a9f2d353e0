import Downhill.LineSearch.Basic
import Downhill.LineSearch.MoreThuente.Interval

/-! The bracketing search for the strong Wolfe conditions. It extrapolates until an interval with
an acceptable step is bracketed and then shrinks the interval. While the first stage lasts, the
interpolation is driven by the function less its sufficient-decrease line. -/
namespace Downhill

structure MoreThuente (α : Type) where
  alpha0 : α
  c1 : α
  c2 : α
  xtol : α
  alphaMin : α
  alphaMax : α
  maxEvals : Int
  deriving Repr, DecidableEq

namespace MoreThuente
variable {α V M : Type} [Scalar α] [Space α V]

/-- The default parameters, for a given curvature constant. -/
def standard (c2 : α) : MoreThuente α := ⟨1.0, 1e-4, c2, 1e-10, 1e-20, 1e20, 40⟩

def check (s : MoreThuente α) : Except (Fault α) Unit := do
  checkWolfe s.c1 s.c2
  if s.xtol < 0 then throw (.setting .intervalTolerance)
  unless 0 ≤ s.alphaMin ∧ s.alphaMin < s.alphaMax do throw (.setting .stepBounds)
  unless 1 ≤ s.maxEvals do throw (.setting .evaluationCap)

/-- Extrapolation goes at least this many times the last advance beyond the trial. -/
def extrapolateLower : α := 1.1

/-- Extrapolation goes at most this many times the last advance beyond the trial. -/
def extrapolateUpper : α := 4.0

/-- The state before a trial: the trial step, the best end of the interval and the other one, the
last two widths, the bounds of the next step, and the best step with sufficient decrease. -/
structure State (α V : Type) where
  trial : α
  best : End α
  other : End α
  bracketed : Bool
  firstStage : Bool
  width : α
  previousWidth : α
  low : α
  high : α
  candidate : Option (α × Iterate α V)
  trials : Nat

def initial (s : MoreThuente α) (f0 slope alpha : α) : State α V :=
  let width := s.alphaMax - s.alphaMin
  { trial := alpha
    best := ⟨0, f0, slope⟩
    other := ⟨0, f0, slope⟩
    bracketed := false
    firstStage := true
    width
    previousWidth := 2.0 * width
    low := 0
    high := alpha + extrapolateUpper * alpha
    candidate := none
    trials := 0 }

/-- An end for the function less the line of slope `test`. -/
def End.lowered (e : End α) (test : α) : End α :=
  ⟨e.step, e.value - e.step * test, e.slope - test⟩

/-- An end for the function itself, from one for the function less the line. -/
def End.raised (e : End α) (test : α) : End α :=
  ⟨e.step, e.value + e.step * test, e.slope + test⟩

/-- The strong Wolfe conditions with strict decrease. -/
def acceptable (s : MoreThuente α) (f0 slope : α) (t : End α) : Bool :=
  t.value ≤ f0 + t.step * (s.c1 * slope) && t.value < f0 && Scalar.abs t.slope ≤ -s.c2 * slope

/-- The better of the candidate so far and the trial. -/
def better (s : MoreThuente α) (f0 slope : α) (candidate : Option (α × Iterate α V)) (alpha : α)
    (y : Iterate α V) : Option (α × Iterate α V) :=
  if sufficientDecrease y.value f0 alpha slope s.c1 &&
      candidate.all (fun c => y.value < c.2.value) then some (alpha, y)
  else candidate

/-- The first reason, if any, to stop after a trial that is not acceptable. -/
def earlyStop (s : MoreThuente α) (f0 slope : α) (st : State α V) (t : End α) :
    Option EarlyStop :=
  let gtest := s.c1 * slope
  let ftest := f0 + t.step * gtest
  if st.bracketed && (t.step ≤ st.low || st.high ≤ t.step) then some .rounding
  else if st.bracketed && st.high - st.low ≤ s.xtol * st.high then some .interval
  else if t.step == s.alphaMax && t.value ≤ ftest && t.slope ≤ gtest then some .upperBound
  else if t.step == s.alphaMin && (ftest < t.value || gtest ≤ t.slope) then some .lowerBound
  else none

/-- The interval after a trial. In the first stage, a trial that is no higher than the best end but
still above the line is interpolated through the function less the line. -/
def update (s : MoreThuente α) (f0 slope : α) (st : State α V) (firstStage : Bool) (t : End α) :
    Update α :=
  let gtest := s.c1 * slope
  let ftest := f0 + t.step * gtest
  if firstStage && t.value ≤ st.best.value && ftest < t.value then
    let u := safeguardedStep (st.best.lowered gtest) (st.other.lowered gtest) (t.lowered gtest)
      st.bracketed st.low st.high
    { u with best := u.best.raised gtest, other := u.other.raised gtest }
  else safeguardedStep st.best st.other t st.bracketed st.low st.high

/-- Widths and bounds for the next trial, and the trial kept within the bounds of the search. A
bracketed interval that has not shrunk enough over two updates is halved. -/
def settle (s : MoreThuente α) (st : State α V) (u : Update α) : State α V :=
  let x := u.best.step
  let y := u.other.step
  let st := { st with best := u.best, other := u.other, bracketed := u.bracketed }
  if u.bracketed then
    let gap := Scalar.abs (y - x)
    let next := if bisectRatio * st.previousWidth ≤ gap then x + 0.5 * (y - x) else u.next
    let low := Scalar.smaller x y
    let high := Scalar.larger x y
    let next := Scalar.clamp s.alphaMin s.alphaMax next
    let trial :=
      if next ≤ low || high ≤ next || high - low ≤ s.xtol * high then x else next
    { st with trial, low, high, width := gap, previousWidth := st.width }
  else
    { st with
      trial := Scalar.clamp s.alphaMin s.alphaMax u.next
      low := u.next + extrapolateLower * (u.next - x)
      high := u.next + extrapolateUpper * (u.next - x) }

/-- A search that stops early returns the best step with sufficient decrease, if it saw one. -/
def conclude (r : Ray α V) (candidate : Option (α × Iterate α V)) (trials : Nat)
    (cause : EarlyStop) : Step α V :=
  match candidate with
  | some (alpha, reached) => .accepted alpha reached trials trials (.stoppedWithBest cause)
  | none => .failed r trials trials (.stopped cause)

/-- What follows from a trial that reached `y`. -/
def judge (s : MoreThuente α) (r : Ray α V) (slope : α) (st : State α V) (y : Iterate α V) :
    State α V ⊕ Step α V :=
  let f0 := r.start.value
  let t : End α := ⟨st.trial, y.value, Space.inner y.gradient r.direction⟩
  let trials := st.trials + 1
  let candidate := s.better f0 slope st.candidate st.trial y
  if s.acceptable f0 slope t then .inr (.accepted st.trial y trials trials .strongWolfe)
  else
    let firstStage :=
      st.firstStage && !(t.value ≤ f0 + t.step * (s.c1 * slope) && 0 ≤ t.slope)
    match s.earlyStop f0 slope st t with
    | some cause => .inr (conclude r candidate trials cause)
    | none =>
      let u := s.update f0 slope st firstStage t
      if Scalar.isFinite u.next then
        .inl (s.settle { st with firstStage, candidate, trials } u)
      else .inr (conclude r candidate trials .unusableStep)

def attempt (s : MoreThuente α) (o : Oracle α V M) (r : Ray α V) (slope : α) (st : State α V) :
    Eval α V (State α V ⊕ Step α V) := do
  let x := r.along st.trial
  let f ← o.value x
  let g ← o.gradient x
  Eval.ofExcept (checkScalar (.trial "objective" st.trial) f)
  Eval.ofExcept (checkArray (.trial "gradient" st.trial) (Space.finite g))
  Eval.ofExcept (Space.dotCheck g r.direction)
  return s.judge r slope st ⟨x, f, g⟩

def search (s : MoreThuente α) (o : Oracle α V M) (r : Ray α V) (asked : Option α) :
    Eval α V (Step α V) := do
  let (slope, alpha) ← Eval.ofExcept (r.prepare s.alpha0 asked)
  let start := s.initial r.start.value slope (Scalar.clamp s.alphaMin s.alphaMax alpha)
  match ← upTo (s.attempt o r slope) s.maxEvals.toNat start with
  | .inr step => return step
  | .inl st => return conclude r st.candidate st.trials (.evaluations s.maxEvals.toNat)

end MoreThuente

end Downhill
