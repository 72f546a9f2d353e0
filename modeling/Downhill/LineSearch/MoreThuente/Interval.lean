import Downhill.Scalar

/-! The interval of uncertainty of the bracketing search and the safeguarded step into it: four
cases, each weighing the minimizer of a cubic against that of a quadratic. -/
namespace Downhill.MoreThuente
variable {α : Type} [Scalar α]

structure End (α : Type) where
  step : α
  value : α
  slope : α
  deriving Repr, DecidableEq

/-- The share of the interval beyond which a step is pulled back. -/
def bisectRatio : α := 0.66

/-- The root of `max 0 (theta² - d1 d2)`, computed on values scaled by the largest of the three. -/
def cubicGamma (theta d1 d2 : α) : α :=
  let scale := Scalar.larger (Scalar.larger (Scalar.abs theta) (Scalar.abs d1)) (Scalar.abs d2)
  if scale == 0 then 0
  else
    let t := theta / scale
    scale * Scalar.sqrt (Scalar.larger 0 (t * t - (d1 / scale) * (d2 / scale)))

def opposite (dp dx : α) : Bool := (0 < dp && dx < 0) || (dp < 0 && 0 < dx)

/-- The middle coefficient of the cubic through the best end `x` and the trial `p`. -/
def theta (x p : End α) : α := 3.0 * (x.value - p.value) / (p.step - x.step) + x.slope + p.slope

/-- A sign that follows the direction of the interval. -/
def oriented (flip : Bool) (gamma : α) : α := if flip then -gamma else gamma

/-- The minimizer of the cubic through `x` and `p`, seen from `x`. -/
def cubicFrom (x p : End α) : α :=
  let theta := theta x p
  let gamma := oriented (p.step < x.step) (cubicGamma theta x.slope p.slope)
  let num := gamma - x.slope + theta
  let den := gamma - x.slope + gamma + p.slope
  x.step + num / den * (p.step - x.step)

/-- The minimizer of the cubic through `p` and `e` with middle coefficient `theta`, seen from `p`. -/
def cubicToward (theta : α) (e p : End α) : α :=
  let gamma := oriented (e.step < p.step) (cubicGamma theta e.slope p.slope)
  let num := gamma - p.slope + theta
  let den := gamma - p.slope + gamma + e.slope
  p.step + num / den * (e.step - p.step)

/-- The minimizer of the quadratic with the values at `x` and `p` and the slope at `x`. -/
def quadraticFrom (x p : End α) : α :=
  x.step + x.slope / ((x.value - p.value) / (p.step - x.step) + x.slope) / 2.0 * (p.step - x.step)

def secant (x p : End α) : α :=
  p.step + p.slope / (p.slope - x.slope) * (x.step - p.step)

/-- A higher value: the cubic step, unless the quadratic one is much closer to the best end. -/
def stepAfterRise (x p : End α) : α :=
  let c := cubicFrom x p
  let q := quadraticFrom x p
  if Scalar.abs (c - x.step) ≤ Scalar.abs (q - x.step) then c else c + (q - c) / 2.0

/-- A lower value with slopes of opposite sign: the step farther from the trial. -/
def stepAcross (x p : End α) : α :=
  let c := cubicToward (theta x p) x p
  let s := secant x p
  if Scalar.abs (s - p.step) < Scalar.abs (c - p.step) then c else s

/-- The cubic step when the slope flattens; without a minimizer beyond the trial it is the bound
in the direction of the search. -/
def cubicBeyond (x p : End α) (low high : α) : α :=
  let theta := theta x p
  let gamma := oriented (x.step < p.step) (cubicGamma theta x.slope p.slope)
  let num := gamma - p.slope + theta
  let den := gamma + (x.slope - p.slope) + gamma
  let r := num / den
  if r < 0 && !(gamma == 0) then p.step + r * (x.step - p.step)
  else if x.step < p.step then high
  else low

/-- A lower value with a flatter slope of the same sign. -/
def stepFlattening (x y p : End α) (bracketed : Bool) (low high : α) : α :=
  let c := cubicBeyond x p low high
  let s := secant x p
  if bracketed then
    let f := if Scalar.abs (c - p.step) < Scalar.abs (s - p.step) then c else s
    let limit := p.step + bisectRatio * (y.step - p.step)
    if x.step < p.step then Scalar.smaller limit f else Scalar.larger limit f
  else
    let f := if Scalar.abs (s - p.step) < Scalar.abs (c - p.step) then c else s
    Scalar.clamp low high f

/-- A lower value with a slope of the same sign that does not flatten. -/
def stepOnward (x y p : End α) (bracketed : Bool) (low high : α) : α :=
  if bracketed then
    cubicToward (3.0 * (p.value - y.value) / (y.step - p.step) + y.slope + p.slope) y p
  else if x.step < p.step then high
  else low

def trialStep (x y p : End α) (bracketed : Bool) (low high : α) : α :=
  if x.value < p.value then stepAfterRise x p
  else if opposite p.slope x.slope then stepAcross x p
  else if Scalar.abs p.slope < Scalar.abs x.slope then stepFlattening x y p bracketed low high
  else stepOnward x y p bracketed low high

structure Update (α : Type) where
  best : End α
  other : End α
  next : α
  bracketed : Bool
  deriving Repr, DecidableEq

/-- The trial replaces the other end if its value is higher, and the best end if not; where the
slopes are opposite the old best end becomes the other one. -/
def safeguardedStep (x y p : End α) (bracketed : Bool) (low high : α) : Update α :=
  let next := trialStep x y p bracketed low high
  if x.value < p.value then ⟨x, p, next, true⟩
  else if opposite p.slope x.slope then ⟨p, x, next, true⟩
  else ⟨p, y, next, bracketed⟩

end Downhill.MoreThuente
