/-! What can go wrong, as causes. A numerical fault ends a run with a status; every other fault
ends the call that met it. Wording is not decided here. -/
namespace Downhill

/-- The extents of an array, outermost first. -/
abbrev Shape := List Nat

/-- The number of entries of an array of these extents. -/
def Shape.volume (s : Shape) : Nat := s.foldr (· * ·) 1

/-- An array does not have the extents that the problem asks for. -/
inductive DimensionFault where
  | notVector (shape : Shape)
  | wrongLength (entries : Nat) (dimension : Int)
  | gradientShape (shape : Shape) (dimension : Nat)
  | hessianShape (shape : Shape) (dimension : Nat)
  deriving Repr, DecidableEq

inductive Quantity (α : Type) where
  | named (what : String)
  | trial (what : String) (alpha : α)
  deriving Repr, DecidableEq

/-- A value that is no finite number where one is required, or a direction that its strategy
declines to give. -/
inductive NumericalFault (α : Type) where
  | scalar (what : Quantity α) (value : α)
  | array (what : Quantity α)
  | declined (text : String)
  deriving Repr, DecidableEq

inductive SettingFault (α : Type) where
  | iterationCap (given : Int)
  | tolerance (given : α)
  | shiftBase
  | shiftGrowth
  | shiftAttempts
  | betaRule (given : String)
  | restartInterval
  | memory
  | memoryDimension
  | armijoConstant
  | wolfeConstants
  | contraction
  | safeguard
  | trialCap
  | intervalTolerance
  | stepBounds
  | evaluationCap
  | differenceStep
  | differenceSteps
  | notSquare (shape : Shape)
  | rightHandSide (dimension : Nat) (shape : Shape)
  | valleyDimension
  | lineSearchName (given : String)
  | solverName (given : String)
  deriving Repr, DecidableEq

inductive Fault (α : Type) where
  | dimension (cause : DimensionFault)
  | numerical (cause : NumericalFault α)
  | setting (cause : SettingFault α)
  /-- The direction of a search has no negative slope. -/
  | notDescent (slope : α)
  /-- The first step of a search is not positive and finite. -/
  | initialStep (given : α)
  | noGradient (problem : String)
  | noHessian (problem : String)
  /-- An operation that only a refinement of its owner supplies. -/
  | abstract
  | notPositiveDefinite (attempts : Int)
  | singular
  | emptyDiagonal
  /-- Two arrays meet whose extents do not go together. -/
  | lengths
  /-- An array of several entries stands where a number is needed. -/
  | notNumber
  | missingEntry
  | zeroDivision
  | overflow
  | uninitialized
  /-- The length of a history that does not exist yet. -/
  | noHistory
  | notSearch
  | noSuchPart
  | unknownParameter
  | unknownStatus
  | frozen
  /-- A vector whose entries cannot hold the answer in place. -/
  | notFloating
  deriving Repr, DecidableEq

/-- The faults that a run turns into a status. -/
def Fault.isNumerical {α : Type} : Fault α → Bool
  | .numerical _ => true
  | _ => false

@[simp] theorem Fault.isNumerical_numerical {α : Type} (c : NumericalFault α) :
    (Fault.numerical c).isNumerical = true := rfl

end Downhill
