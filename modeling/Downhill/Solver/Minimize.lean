import Downhill.Solver.Method

/-! The methods as functions: one call minimizes one problem. -/
namespace Downhill

/-- What all methods let the caller choose. -/
structure Choices (α V M : Type) where
  maxIters : Int
  tolerance : α
  search : Option (Searcher α V M)
  history : Bool

namespace Method
variable {α V M : Type} [Scalar α] [Space α V] [Curved α V M]

omit [Space α V] [Curved α V M] in
def defaults (m : Method α) : Choices α V M :=
  ⟨m.defaultMaxIters, Config.defaultTolerance, none, false⟩

omit [Space α V] [Curved α V M] in
/-- What a run needs; the shared settings are checked before those of the method. -/
def equip (m : Method α) (c : Choices α V M) :
    Except (Fault α) (Config α × Plan α × LineSearch α) := do
  let config ← Config.make c.maxIters c.tolerance c.history
  return (config, ← m.plan, ← m.defaultSearch)

def minimize (m : Method α) (c : Choices α V M) (p : Problem α V M) (x : V) : Report α V :=
  let report : Report α V := match m.equip c with
    | .error f => .fault f
    | .ok (config, plan, default) =>
      (launch p x plan.strategist (c.search.getD default.searcher) config).1
  report.after (m.warning c.search)

end Method

variable {α V M : Type} [Scalar α] [Space α V] [Curved α V M]

def newtonMethod (beta : α) (c : Choices α V M) (p : Problem α V M) (x : V) : Report α V :=
  (Method.newton { Newton.standard with beta }).minimize c p x

def nonlinearCG (rule : String) (interval : Option Int) (c : Choices α V M) (p : Problem α V M)
    (x : V) : Report α V :=
  (Method.conjugateGradient rule interval).minimize c p x

def lbfgs (memory : Int) (c : Choices α V M) (p : Problem α V M) (x : V) : Report α V :=
  (Method.quasiNewton { QuasiNewton.standard with memory }).minimize c p x

end Downhill
