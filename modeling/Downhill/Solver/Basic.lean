import Downhill.Descent.Script
import Downhill.Solver.Method
import Downhill.Solver.Setting

/-! Solvers: a method with its settings, which keeps the result of its last run. Settings are
checked when a solver is made and again at every run, since they may be changed in between. -/
namespace Downhill

/-- What stands in the place of the search of a solver. -/
inductive Guide (α V : Type) where
  | search (s : LineSearch α)
  /-- A search by its answers, of which so many were asked for already. -/
  | scripted (verdicts : List (Script.Verdict α V)) (asked : Nat)
  /-- Something that is no search. It is not looked at before a run. -/
  | stray (v : Setting α)
  deriving Repr, DecidableEq

structure Solver (α V : Type) where
  maxIters : Int
  tolerance : α
  lineSearch : Option (Guide α V)
  history : Bool
  method : Method α
  result : Option (Outcome α V)

/-- A search that cannot be called. -/
def Searcher.stray {α V M : Type} : Searcher α V M where
  State := Unit
  search := { name := "stray", enforcesCurvature := false, run := fun _ _ _ => throw .notSearch }
  fresh := ()

namespace Guide
variable {α V M : Type}

/-- The search, in the state in which the last run left it. -/
def searcher [Scalar α] [Space α V] : Guide α V → Searcher α V M
  | search s => s.searcher
  | scripted verdicts asked => ⟨Nat, Script.search verdicts, asked⟩
  | stray _ => .stray

/-- The same search after a run that left it in a state. -/
def after [Scalar α] [Space α V] : (g : Guide α V) → (g.searcher : Searcher α V M).State → Guide α V
  | scripted verdicts _, asked => scripted verdicts asked
  | g, _ => g

/-- A value in the place of a search. -/
def ofSetting : Setting α → Option (Guide α V)
  | .absent => none
  | .search s => some (search s)
  | v => some (stray v)

/-- What stands in the place of a search, as a value. -/
def setting : Guide α V → Setting α
  | search s => .search s
  | scripted .. => .machine Script.searchName
  | stray v => v

end Guide

namespace Solver
variable {α V M : Type} [Scalar α]

def standard (m : Method α) : Solver α V :=
  ⟨m.defaultMaxIters, Config.defaultTolerance, none, false, m, none⟩

/-- The settings that all methods share, if they are accepted. -/
def config (s : Solver α V) : Except (Fault α) (Config α) :=
  Config.make s.maxIters s.tolerance s.history

/-- The settings of a new solver; the contract without a strategy has none of its own. -/
def check (s : Solver α V) : Except (Fault α) Unit := do
  discard s.config
  match s.method with
  | .base => return
  | m => discard m.plan

/-- What a run needs; the settings of the method are checked before the shared ones. -/
def equip (s : Solver α V) : Except (Fault α) (LineSearch α × Plan α × Config α) := do
  let default ← s.method.defaultSearch
  return (default, ← s.method.plan, ← s.config)

/-- A method that asks its search for a curvature condition can only ask a search. -/
def asksStray (s : Solver α V) : Bool :=
  match s.lineSearch, s.method with
  | some (.stray _), .quasiNewton _ => true
  | _, _ => false

variable [Space α V] [Curved α V M]

def report (s : Solver α V) (p : Problem α V M) (x : V) : Report α V × Option (Guide α V) :=
  if s.asksStray then (.fault .noSuchPart, s.lineSearch)
  else
    let warning := s.method.warning (s.lineSearch.map fun g => (g.searcher : Searcher α V M))
    match s.equip, s.lineSearch with
    | .error f, g => ((Report.fault f).after warning, g)
    | .ok (default, plan, config), none =>
      ((launch p x plan.strategist default.searcher config).1.after warning, none)
    | .ok (_, plan, config), some g =>
      let (r, state) := launch p x plan.strategist g.searcher config
      (r.after warning, some (g.after state))

/-- Keeps a result; a run that ended in a fault leaves the last one. -/
def keep (s : Solver α V) (r : Report α V) : Solver α V :=
  match r.result with
  | .ok result => { s with result := some result }
  | .error _ => s

/-- Runs from a start and keeps the result. -/
def run (s : Solver α V) (p : Problem α V M) (x : V) : Report α V × Solver α V :=
  let (r, lineSearch) := s.report p x
  (r, { s with lineSearch }.keep r)

/-- Runs from a start and overwrites it with the point that was reached, rounded to what the start
can hold. A start whose entries cannot hold such a point is refused, and a fault leaves the start
as it is. -/
def minimize (s : Solver α V) (p : Problem α V M) (round? : Option (V → V)) (x : V) :
    Except (Fault α) Status × V × Report α V × Solver α V :=
  match round? with
  | none => (.error .notFloating, x, .fault .notFloating, s)
  | some round =>
    let (r, s) := s.run p x
    match r.result with
    | .error f => (.error f, x, r, s)
    | .ok result =>
      match Space.write? x (round result.point) with
      | some x => (.ok result.status, x, r, s)
      | none => (.error .lengths, x, r, s)

omit [Scalar α] [Space α V] in
@[simp] theorem keep_of_fault (s : Solver α V) {r : Report α V} {f : Fault α}
    (h : r.result = .error f) : s.keep r = s := by simp [keep, h]

end Solver

end Downhill
