import Downhill.Demo.Arguments
import Downhill.Logging.Registry
import Downhill.Problem.Quadratic
import Downhill.Problem.Valley
import Downhill.Solver.Catalogue

/-! The demonstration: every chosen method solves a random quadratic in sixteen variables and the
valley function in two, whose derivatives are taken by differences. -/
namespace Downhill.Demo

/-- The random numbers for one method. -/
structure Draws where
  normals : Matrix Float 16
  linear : Vector Float 16
  start : Vector Float 16
  valleyStart : Vector Float 2

/-- What a method prints, the remarks made, and whether both problems were solved. -/
structure Trial where
  lines : List String
  remarks : Array (Remark Float)
  solved : Bool

/-- The cap on the iterations for the quadratic; one is enough for Newton directions. -/
def quadraticCap (method : String) : Int := if method = "newton" then 1 else 1000

/-- The cap on the iterations for the valley. -/
def valleyCap (method : String) : Int := if method = "newton" then 100 else 1000

def accuracy : Float := 1e-4

def rule : String := String.ofList (List.replicate 60 '=')

/-- Minimizes a problem with the method of a name; the answer holds the point reached. -/
def solve {n : Nat} (method : String) (cap : Int)
    (p : Problem Float (Vector Float n) (Matrix Float n)) (start : Vector Float n) :
    Except (Fault Float) (Outcome Float (Vector Float n)) × Array (Remark Float) :=
  match Solver.create method none [("max_iters", .count cap)] with
  | .error f => (.error f, #[])
  | .ok s =>
    let (_, _, r, _) := s.minimize p (some id) start
    (r.result, r.remarks)

/-- A result line: status, number of iterations, and how far off the result is. -/
def resultLine (head measure : String) (status : Status) (iterations : Nat) (error : Float) :
    String :=
  head ++ "status=" ++ status.name ++ s!", nit={iterations}, " ++ measure ++ "="
    ++ Decimal.scientific 3 error

def attempt (method : String) (d : Draws) : Except (Fault Float) Trial := do
  let q := Quadratic.random d.normals d.linear Quadratic.defaultCondition
  let (first, firstRemarks) := solve method (quadraticCap method) q.problem d.start
  let a ← first
  let (second, secondRemarks) := solve method (valleyCap method) Rosenbrock.bare d.valleyStart
  let b ← second
  let residual := norm (q.gradient a.point)
  let error := norm (b.point - Vector.replicate 2 1.0)
  let solvedFirst := allFinite a.point && residual ≤ accuracy
  let solvedSecond := allFinite b.point &&
    ((b.status == .converged && error ≤ accuracy) || method == "lbfgs")
  return {
    lines := [rule, "Solver: " ++ method, rule,
      resultLine "Quadratic:  " "|Ax-b|" a.status a.iterations residual,
      resultLine "Rosenbrock: " "|x-1|" b.status b.iterations error, ""]
    remarks := firstRemarks ++ secondRemarks
    solved := solvedFirst && solvedSecond }

/-- What the demonstration leaves behind. -/
structure Showing where
  exit : Nat
  output : List String
  errors : List String

/-- Runs the chosen methods, each on draws of its own. -/
def run (a : Arguments) (draws : String → Draws) : Except (Fault Float) Showing := do
  let registry := if a.verbose then
      Registry.initial.withHandlers ⟨Level.debug, .standard, .standardError⟩
    else Registry.initial
  let trials ← (methods a.mode).mapM fun m => do return (m, ← attempt m (draws m))
  let output := trials.flatMap fun t => t.2.lines
  let log := (trials.flatMap fun t => registry.remarkLines t.2.remarks.toList).map Prod.snd
  let failures := (trials.filter fun t => !t.2.solved).map Prod.fst
  if failures.isEmpty then return ⟨0, output ++ ["All problems solved."], log⟩
  else
    let complaint := registry.write (some Logger.demonstration) Level.error
      ("failed: " ++ ", ".intercalate failures)
    return ⟨1, output, log ++ complaint.1.map Prod.snd⟩

end Downhill.Demo
