import Downhill.Decimal.Text
import Downhill.Report

/-! The words for faults, for the outcomes of searches and runs, and for remarks. -/
namespace Downhill

/-- Extents in round brackets; a single extent keeps its comma. -/
def shapeText : Shape → String
  | [n] => s!"({n},)"
  | shape => "(" ++ ", ".intercalate (shape.map toString) ++ ")"

/-- The names in square brackets, each between single quotes. -/
def nameList (names : List String) : String :=
  "[" ++ ", ".intercalate (names.map fun n => "'" ++ n ++ "'") ++ "]"

def lineSearchNames : List String := ["backtracking", "bisection", "cubic", "more_thuente"]

def solverNames : List String := ["cg", "lbfgs", "newton"]

/-- The rules for conjugacy, in the order in which they are offered. -/
def betaRuleNames : List String := ["PR+", "FR", "HS+"]

/-- Three digits behind the point, and no sign on a zero. -/
def slopeText (v : Float) : String :=
  if v == 0.0 then Decimal.scientific 3 0.0 else Decimal.scientific 3 v

namespace DimensionFault

def text : DimensionFault → String
  | notVector shape => s!"expected a 1-D vector, got shape {shapeText shape}"
  | wrongLength k n => s!"vector has {k} entries but the problem dimension is {n}"
  | gradientShape shape n => s!"gradient has shape {shapeText shape}, expected ({n},)"
  | hessianShape shape n => s!"Hessian has shape {shapeText shape}, expected ({n}, {n})"

end DimensionFault

namespace Quantity

def text : Quantity Float → String
  | named what => what
  | trial what alpha => what ++ " at trial step " ++ Decimal.scientific 3 alpha

end Quantity

namespace NumericalFault

/-- The entries of an array are not listed. -/
def text : NumericalFault Float → String
  | scalar what v => what.text ++ " is not finite: " ++ Decimal.plain v
  | array what => what.text ++ " is not finite: array"
  | declined words => words

end NumericalFault

namespace SettingFault

def text : SettingFault Float → String
  | iterationCap given => s!"max_iters must be >= 0, got {given}."
  | tolerance given => "gradient_tolerance must be positive, got " ++ Decimal.plain given ++ "."
  | shiftBase => "beta must be positive"
  | shiftGrowth => "growth must be greater than 1"
  | shiftAttempts => "max_regularization_attempts must be at least 1"
  | betaRule given =>
    "Unknown beta rule '" ++ given ++ "'. Available: " ++ ", ".intercalate betaRuleNames
  | restartInterval => "restart_interval must be at least 1"
  | memory => "history size m must be at least 1"
  | memoryDimension => "dimension must be at least 1"
  | armijoConstant => "Armijo constant c1 must lie in (0, 1)"
  | wolfeConstants => "Require 0 < c1 < c2 < 1 for Wolfe conditions."
  | contraction => "rho must lie in (0, 1)"
  | safeguard => "Require 0 < low <= high < 1 for the safeguard interval."
  | trialCap => "max_iter must be at least 1"
  | intervalTolerance => "xtol must be non-negative"
  | stepBounds => "Require 0 <= alpha_min < alpha_max."
  | evaluationCap => "max_evals must be at least 1"
  | differenceStep => "eps must be positive"
  | differenceSteps => "finite-difference steps must be positive"
  | notSquare shape => s!"A must be square, got shape {shapeText shape}"
  | rightHandSide n shape => s!"b must have shape ({n},), got {shapeText shape}"
  | valleyDimension => "Rosenbrock needs at least 2 dimensions"
  | lineSearchName given =>
    "Unsupported line search '" ++ given ++ "'. Supported names: " ++ nameList lineSearchNames
  | solverName given =>
    "Unsupported solver '" ++ given ++ "'. Supported names: " ++ nameList solverNames

end SettingFault

namespace Fault

/-- The text of a fault, if it comes with one. A strategy that declines speaks for itself. -/
def text? : Fault Float → Option String
  | dimension cause => some cause.text
  | numerical (.declined _) => none
  | numerical cause => some cause.text
  | setting cause => some cause.text
  | notDescent slope =>
    some ("Search direction must be a descent direction (g·d = " ++ slopeText slope ++ ").")
  | initialStep given =>
    some ("initial step must be positive and finite, got " ++ Decimal.plain given)
  | noGradient problem => some (problem ++ " has no analytic gradient")
  | noHessian problem => some (problem ++ " has no analytic Hessian")
  | abstract => some ""
  | notPositiveDefinite attempts =>
    some s!"matrix not positive definite after {attempts} shifted factorizations"
  | notFloating => some "x must be a floating-point numpy array; it is updated in place"
  | _ => none

end Fault

namespace EarlyStop

def text : EarlyStop → String
  | rounding => "Rounding errors prevent further progress."
  | interval => "Interval of uncertainty is below xtol."
  | upperBound => "Step reached alpha_max."
  | lowerBound => "Step reached alpha_min."
  | unusableStep => "Interpolation produced a non-finite step."
  | evaluations cap => s!"No strong Wolfe step within {cap} evaluations."

end EarlyStop

namespace SearchMessage

def wording : SearchMessage Float → String
  | armijo => "Armijo condition satisfied."
  | wolfe => "Wolfe conditions satisfied."
  | strongWolfe => "Strong Wolfe conditions satisfied."
  | bracketExhausted => "Bracket exhausted; returning last Armijo step."
  | tooShort least => "Step length fell below " ++ Decimal.general least ++ "."
  | noStep cap => s!"No acceptable step within {cap} trials."
  | stopped cause => cause.text
  | stoppedWithBest cause => cause.text ++ " Returning best sufficient-decrease step."
  | text words => words

end SearchMessage

namespace Status

def name : Status → String
  | converged => "converged"
  | iterationCap => "max_iter"
  | searchFailed => "line_search_failed"
  | numericalError => "numerical_error"

def constant : Status → String
  | converged => "CONVERGED"
  | iterationCap => "MAX_ITER"
  | searchFailed => "LINE_SEARCH_FAILED"
  | numericalError => "NUMERICAL_ERROR"

def all : List Status := [converged, iterationCap, searchFailed, numericalError]

def ofName? (s : String) : Option Status := all.find? (·.name == s)

theorem ofName?_name (s : Status) : ofName? s.name = some s := by cases s <;> rfl

end Status

namespace RunMessage

def text : RunMessage Float → String
  | startNotFinite => "Initial point is not finite."
  | initialNotFinite => "Objective or gradient not finite at the initial point."
  | toleranceMet => "Gradient tolerance satisfied."
  | numerical cause => cause.text
  | directionNotFinite => "Search direction is not finite."
  | search message => message.wording
  | stepNotFinite => "Non-finite value after the accepted step."
  | iterationCap => "Maximum iterations reached."

end RunMessage

def Restart.text : Restart → String
  | periodic => "periodic"
  | noConjugacy => "beta <= 0"
  | notDescending => "not a descent direction"

def Source.logger : Source → String
  | loop => "optlib.driver"
  | newton => "optlib.newton"
  | conjugateGradient => "optlib.nonlinear_cg"
  | quasiNewton => "optlib.quasi_newton"

namespace Remark

def text : Remark Float → String
  | finished strategy k message value norm =>
    s!"{strategy} finished after {k} iterations: " ++ message.text ++ " (f="
      ++ Decimal.scientific 6 value ++ ", |g|=" ++ Decimal.scientific 3 norm ++ ")"
  | iterated strategy k value norm alpha =>
    s!"{strategy} iter {k}: f=" ++ Decimal.scientific 6 value ++ " |g|="
      ++ Decimal.scientific 3 norm ++ " alpha=" ++ Decimal.scientific 3 alpha
  | notDescending strategy k =>
    s!"{strategy}: not a descent direction at iteration {k}, using -grad"
  | retrying strategy k message =>
    s!"{strategy}: line search failed at iteration {k} (" ++ message.wording
      ++ "), retrying along -grad"
  | shifted tau => "Hessian shifted by tau=" ++ Decimal.scientific 3 tau
  | notRegularized => "Hessian could not be regularized; taking a steepest-descent step"
  | restarted reason => "CG restart (" ++ reason.text ++ ")"
  | skipped curvature => "skipping curvature pair with y·s=" ++ Decimal.scientific 3 curvature
  | curvatureNotEnforced search =>
    search ++ " does not enforce a curvature condition; L-BFGS updates may be skipped"

end Remark

end Downhill
