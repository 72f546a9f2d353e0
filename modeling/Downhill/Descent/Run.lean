import Downhill.Descent.Basic
import Downhill.Direction.Basic
import Downhill.LineSearch.Basic
import Downhill.Problem.Basic

/-! The loop that all descent methods share. An iteration asks the strategy for a direction, puts
steepest descent in its place where it does not descend, searches along it, and searches once more
along steepest descent where that fails. A numerical fault on the way stops the run at the last
accepted iterate; every other fault ends the call, and the record shows what was done until
then. -/
namespace Downhill

/-- What a run keeps while it goes: the states of strategy and search, the accepted iterates after
the start, and the calls made. -/
structure Flow (σ ρ α V : Type) where
  strategy : σ
  search : ρ
  trace : Array (Iterate α V)
  calls : Array (Call α V)

structure Descent (σ ρ α V M : Type) where
  problem : Problem α V M
  strategy : Strategy σ α V M
  search : Search ρ α V M
  config : Config α

/-- What is known after a run, also after one that ended in a fault. -/
structure Record (σ ρ α V : Type) where
  result : Except (Fault α) (Outcome α V)
  flow : Flow σ ρ α V
  ledger : Ledger α V

def guarded {σ α V β : Type} (c : Act σ α V β) : Act σ α V (Except (NumericalFault α) β) :=
  ExceptT.mk do
    match ← c.run with
    | .ok b => return .ok (.ok b)
    | .error (.numerical f) => return .ok (.error f)
    | .error f => return .error f

/-- A numerical fault becomes an answer, and every other result stays what it is. -/
theorem perform_guarded {σ α V β : Type} (c : Act σ α V β) (s : σ) (l : Ledger α V) :
    (guarded c).perform s l = match c.perform s l with
      | (.ok b, t) => (.ok (.ok b), t)
      | (.error (.numerical f), t) => (.ok (.error f), t)
      | (.error f, t) => (.error f, t) := by
  cases h : c.perform s l with
  | mk r t =>
    have h' : c.run.run (s, l) = (r, t) := h
    simp only [guarded, Act.perform, ExceptT.run_mk, StateT.run_bind, h']
    cases r with
    | ok b => rfl
    | error f => cases f <;> rfl

/-- Before the first iteration: the search is as it came, and one call may have been made. -/
def Flow.start {σ ρ α V : Type} (strategy : σ) (search : ρ) (calls : Array (Call α V)) :
    Flow σ ρ α V :=
  ⟨strategy, search, #[], calls⟩

namespace Descent
variable {σ ρ α V M : Type} [Scalar α] [Space α V] [Curved α V M]

/-- What a run in dimension `n` sees of the problem. -/
def work (d : Descent σ ρ α V M) (n : Nat) : Oracle α V M := d.problem.work n d.strategy.needsHessian

def converged (d : Descent σ ρ α V M) (previous current : Iterate α V) :
    Act (Flow σ ρ α V) α V Bool :=
  Act.ofExcept <|
    d.problem.converged previous.point current.point current.gradient d.config.tolerance

def note (c : Call α V) : Act (Flow σ ρ α V) α V Unit :=
  Act.modifyState fun f => { f with calls := f.calls.push c }

def ask {β : Type} (c : Act σ α V β) : Act (Flow σ ρ α V) α V β :=
  Act.within Flow.strategy (fun s f => { f with strategy := s }) c

def look {β : Type} (c : Act ρ α V β) : Act (Flow σ ρ α V) α V β :=
  Act.within Flow.search (fun s f => { f with search := s }) c

def reset (d : Descent σ ρ α V M) : Act (Flow σ ρ α V) α V Unit := do
  note .reset
  ask d.strategy.reset

/-- The direction of an iteration: that of the strategy if it descends, else steepest descent. -/
def propose (d : Descent σ ρ α V M) (o : Oracle α V M) (t : Progress α V) :
    Act (Flow σ ρ α V) α V (Except (RunMessage α) V) := do
  note .compute
  match ← guarded (ask (d.strategy.compute o t.current)) with
  | .error f => return .error (.numerical f)
  | .ok direction =>
    if Space.finite direction then
      let slope ← Act.ofExcept (Space.dot? t.current.gradient direction)
      if slope < 0 then return .ok direction
      else
        Act.remark (.notDescending d.strategy.name t.iterations)
        d.reset
        return .ok (-t.current.gradient)
    else return .error .directionNotFinite

/-- One search along a direction, from the first step that the strategy suggests. -/
def searchAlong (d : Descent σ ρ α V M) (o : Oracle α V M) (it : Iterate α V) (direction : V) :
    Act (Flow σ ρ α V) α V (Step α V) := do
  note (.initialStep it.gradient direction)
  let asked ← ask (d.strategy.initialStep it.gradient direction)
  note (.search direction)
  look (d.search.run o ⟨it, direction⟩ asked)

/-- The search of an iteration. One that fails is repeated along steepest descent, unless it went
that way. The answer holds the direction that was searched last. -/
def explore (d : Descent σ ρ α V M) (o : Oracle α V M) (t : Progress α V) (direction : V) :
    Act (Flow σ ρ α V) α V (V × Step α V) := do
  let step ← d.searchAlong o t.current direction
  if step.success || direction == -t.current.gradient then return (direction, step)
  else
    Act.remark (.retrying d.strategy.name t.iterations step.message)
    d.reset
    return (-t.current.gradient, ← d.searchAlong o t.current (-t.current.gradient))

def finiteStep (step : Step α V) : Bool :=
  Space.finite step.reached.point && Scalar.isFinite step.reached.value
    && Space.finite step.reached.gradient

/-- Takes a successful step: the strategy learns from it, and the end test is made. A step that
reached something that is not finite counts, but is not taken. -/
def take (d : Descent σ ρ α V M) (t : Progress α V) (direction : V) (step : Step α V) :
    Act (Flow σ ρ α V) α V (Progress α V ⊕ Stop α V) := do
  if finiteStep step then
    let next := step.reached
    let s ← Act.ofExcept (Space.difference? next.point t.current.point)
    let y ← Act.ofExcept (Space.difference? next.gradient t.current.gradient)
    note (.update s y next.gradient step.alpha direction)
    ask (d.strategy.update s y next.gradient step.alpha direction)
    let reached : Progress α V := ⟨next, t.iterations + 1⟩
    Act.remark (.iterated d.strategy.name reached.iterations next.value
      (Space.norm next.gradient) step.alpha)
    Act.modifyState fun f => { f with trace := f.trace.push next }
    if ← d.converged t.current next then return .inr (reached.stop .converged .toleranceMet)
    else return .inl reached
  else return .inr ({ t with iterations := t.iterations + 1 }.failed .stepNotFinite)

def iterate (d : Descent σ ρ α V M) (o : Oracle α V M) (t : Progress α V) :
    Act (Flow σ ρ α V) α V (Progress α V ⊕ Stop α V) := do
  match ← d.propose o t with
  | .error message => return .inr (t.failed message)
  | .ok direction =>
    match ← guarded (d.explore o t direction) with
    | .error f => return .inr (t.failed (.numerical f))
    | .ok (direction, step) =>
      if step.success then d.take t direction step
      else return .inr (t.stop .searchFailed (.search step.message))

/-- The iterations from a start at which everything is finite. -/
def pursue (d : Descent σ ρ α V M) (o : Oracle α V M) (start : Iterate α V) :
    Act (Flow σ ρ α V) α V (Stop α V) := do
  if ← d.converged start start then return ⟨.converged, .toleranceMet, 0, start⟩
  else
    match ← upTo (d.iterate o) d.config.maxIters ⟨start, 0⟩ with
    | .inr stop => return stop
    | .inl t => return t.stop .iterationCap .iterationCap

/-- Evaluates a start. Where something is not finite the run stops at once; nothing is evaluated
at a point that is not finite. -/
def openAt (o : Oracle α V M) (x : V) : Eval α V (Iterate α V ⊕ Stop α V) := do
  if Space.finite x then
    let f ← o.value x
    let g ← o.gradient x
    if Scalar.isFinite f && Space.finite g then return .inl ⟨x, f, g⟩
    else return .inr ⟨.numericalError, .initialNotFinite, 0, ⟨x, f, g⟩⟩
  else
    let unknown : α := 0 / 0
    return .inr ⟨.numericalError, .startNotFinite, 0, ⟨x, unknown, unknown * x⟩⟩

def outcome (d : Descent σ ρ α V M) (x : V) (trace : Array (Iterate α V)) (ledger : Ledger α V)
    (stop : Stop α V) : Outcome α V where
  point := stop.final.point
  value := stop.final.value
  gradientNorm := Space.norm stop.final.gradient
  iterations := stop.iterations
  status := stop.status
  message := stop.message
  evaluations := ledger.evaluations
  history := if d.config.history then x :: trace.toList.map Iterate.point else []

def farewell (d : Descent σ ρ α V M) (stop : Stop α V) : Remark α :=
  .finished d.strategy.name stop.iterations stop.message stop.final.value
    (Space.norm stop.final.gradient)

def close (d : Descent σ ρ α V M) (x : V) (result : Except (Fault α) (Stop α V))
    (flow : Flow σ ρ α V) (ledger : Ledger α V) : Record σ ρ α V :=
  match result with
  | .error f => ⟨.error f, flow, ledger⟩
  | .ok stop =>
    ⟨.ok (d.outcome x flow.trace ledger stop), flow,
      { ledger with remarks := ledger.remarks.push (d.farewell stop) }⟩

/-- A run from `x`, with a strategy and a search in any state. -/
def run (d : Descent σ ρ α V M) (x : V) (strategy : σ) (search : ρ) : Record σ ρ α V :=
  let o := d.work (Space.size x)
  match (openAt o x).start with
  | (.error f, ledger) => d.close x (.error f) (.start strategy search #[]) ledger
  | (.ok (.inr stop), ledger) => d.close x (.ok stop) (.start strategy search #[]) ledger
  | (.ok (.inl start), ledger) =>
    match d.strategy.prepare o start strategy with
    | .error f => d.close x (.error f) (.start strategy search #[.prepare]) ledger
    | .ok prepared =>
      let (result, flow, ledger) :=
        (d.pursue o start).perform (.start prepared search #[.prepare]) ledger
      d.close x result flow ledger

/-- A run from a point that must fit the problem. -/
def runFrom (d : Descent σ ρ α V M) (x : V) (strategy : σ) (search : ρ) :
    Except (Fault α) (Record σ ρ α V) := do
  return d.run (← d.problem.accept x) strategy search

end Descent

end Downhill
