import Downhill.Descent.Run
import Downhill.Direction.ConjugateGradient
import Downhill.Direction.Newton
import Downhill.Direction.QuasiNewton.Strategy
import Downhill.LineSearch.Family

/-! The methods of the library: each names a strategy, a search that suits it, and a cap on the
iterations. -/
namespace Downhill

/-- A method with its parameters, as they were given. -/
inductive Method (α : Type) where
  /-- The contract without a strategy. -/
  | base
  | newton (s : Newton α)
  | conjugateGradient (rule : String) (interval : Option Int)
  | quasiNewton (s : QuasiNewton α)
  deriving Repr, DecidableEq

/-- A method whose parameters are accepted. -/
inductive Plan (α : Type) where
  | newton (s : Newton α)
  | conjugateGradient (s : ConjugateGradient)
  | quasiNewton (s : QuasiNewton α)
  deriving Repr, DecidableEq

/-- A new strategist for a plan. -/
def Plan.strategist {α V M : Type} [Scalar α] [Space α V] [Curved α V M] :
    Plan α → Strategist α V M
  | newton s => ⟨Newton.State α, s.strategy, Newton.fresh⟩
  | conjugateGradient s => ⟨ConjugateGradient.State α V, s.strategy, s.fresh⟩
  | quasiNewton s => ⟨QuasiNewton.State α s.memory.toNat V, s.strategy, QuasiNewton.fresh⟩

/-- The answer of a method: how the run ended, the iterates it accepted, and the remarks made on
the way. -/
structure Report (α V : Type) where
  result : Except (Fault α) (Outcome α V)
  trace : Array (Iterate α V)
  remarks : Array (Remark α)

namespace Report
variable {α V : Type}

def fault (f : Fault α) : Report α V := ⟨.error f, #[], #[]⟩

def ofRecord {σ ρ : Type} (r : Record σ ρ α V) : Report α V :=
  ⟨r.result, r.flow.trace, r.ledger.remarks⟩

/-- The same after a remark made before the run. -/
def after (r : Report α V) (warning : Option (Remark α)) : Report α V :=
  { r with remarks := warning.toArray ++ r.remarks }

end Report

namespace Method
variable {α V M : Type} [Scalar α]

/-- Steps between restarts are the dimension and directions follow Polak and Ribière. -/
def standardConjugateGradient : Method α := .conjugateGradient BetaRule.polakRibiere.name none

/-- The directions of the method, if its parameters are accepted. -/
def plan : Method α → Except (Fault α) (Plan α)
  | base => throw .abstract
  | newton s => do
    s.check
    return .newton s
  | conjugateGradient rule interval => do
    return .conjugateGradient (← ConjugateGradient.make rule interval)
  | quasiNewton s => do
    s.check
    return .quasiNewton s

/-- The search that is used if none is given. -/
def defaultSearch : Method α → Except (Fault α) (LineSearch α)
  | base => throw .abstract
  | newton _ => return .backtracking .standard
  | conjugateGradient .. => return .moreThuente (.standard 0.1)
  | quasiNewton _ => return .moreThuente (.standard 0.9)

def defaultMaxIters : Method α → Int
  | newton _ => 100
  | _ => Config.defaultMaxIters

/-- Curvature pairs want a given search to enforce a curvature condition. -/
def warning (m : Method α) (given : Option (Searcher α V M)) : Option (Remark α) :=
  match m, given with
  | quasiNewton _, some s =>
    if s.search.enforcesCurvature then none else some (.curvatureNotEnforced s.search.name)
  | _, _ => none

end Method

/-- A run of a new strategist with a search, from a point that must fit the problem: the report, and
the state in which the search is left. -/
def launch {α V M : Type} [Scalar α] [Space α V] [Curved α V M] (p : Problem α V M) (x : V)
    (s : Strategist α V M) (search : Searcher α V M) (config : Config α) :
    Report α V × search.State :=
  match (Descent.mk p s.strategy search.search config).runFrom x s.fresh search.fresh with
  | .error f => (.fault f, search.fresh)
  | .ok record => (.ofRecord record, record.flow.search)

end Downhill
