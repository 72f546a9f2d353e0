import Downhill.Solver.Basic
import Downhill.Solver.Minimize
import Downhill.Wording

/-! Searches, methods and solvers by name, with parameters by name. -/
namespace Downhill

/-- A letter in its small form. Besides the Latin capitals there is one sign, that of the unit
kelvin, whose small form is a Latin letter. -/
def smallLetter (c : Char) : Char := if c.toNat = 0x212A then 'k' else c.toLower

def smallLetters (s : String) : String := s.map smallLetter

variable {α V M : Type} [Scalar α]

namespace Backtracking

def assign? (s : Backtracking α) (name : String) (v : Setting α) : Option (Backtracking α) :=
  match name with
  | "alpha0" => v.real?.map fun alpha0 => { s with alpha0 }
  | "rho" => v.real?.map fun rho => { s with rho }
  | "c1" => v.real?.map fun c1 => { s with c1 }
  | "max_iter" => v.count?.map fun maxIter => { s with maxIter }
  | "alpha_min" => v.real?.map fun alphaMin => { s with alphaMin }
  | _ => none

omit [Scalar α] in
def parameters (s : Backtracking α) : Settings α :=
  [("alpha0", .real s.alpha0), ("rho", .real s.rho), ("c1", .real s.c1),
    ("max_iter", .count s.maxIter), ("alpha_min", .real s.alphaMin)]

theorem assign_parameters (s t : Backtracking α) : s.parameters.assign assign? t = .ok s := rfl

end Backtracking

namespace CubicBacktracking

def assign? (s : CubicBacktracking α) (name : String) (v : Setting α) :
    Option (CubicBacktracking α) :=
  match name with
  | "alpha0" => v.real?.map fun alpha0 => { s with alpha0 }
  | "rho" => v.real?.map fun rho => { s with rho }
  | "c1" => v.real?.map fun c1 => { s with c1 }
  | "low" => v.real?.map fun low => { s with low }
  | "high" => v.real?.map fun high => { s with high }
  | "max_iter" => v.count?.map fun maxIter => { s with maxIter }
  | "alpha_min" => v.real?.map fun alphaMin => { s with alphaMin }
  | _ => none

omit [Scalar α] in
def parameters (s : CubicBacktracking α) : Settings α :=
  [("alpha0", .real s.alpha0), ("rho", .real s.rho), ("c1", .real s.c1), ("low", .real s.low),
    ("high", .real s.high), ("max_iter", .count s.maxIter), ("alpha_min", .real s.alphaMin)]

theorem assign_parameters (s t : CubicBacktracking α) : s.parameters.assign assign? t = .ok s := rfl

end CubicBacktracking

namespace Bisection

def assign? (s : Bisection α) (name : String) (v : Setting α) : Option (Bisection α) :=
  match name with
  | "alpha0" => v.real?.map fun alpha0 => { s with alpha0 }
  | "c1" => v.real?.map fun c1 => { s with c1 }
  | "c2" => v.real?.map fun c2 => { s with c2 }
  | "wolfe" => v.flag?.map fun wolfe => { s with wolfe }
  | "max_iter" => v.count?.map fun maxIter => { s with maxIter }
  | "alpha_min" => v.real?.map fun alphaMin => { s with alphaMin }
  | "alpha_max" => v.real?.map fun alphaMax => { s with alphaMax }
  | _ => none

omit [Scalar α] in
def parameters (s : Bisection α) : Settings α :=
  [("alpha0", .real s.alpha0), ("c1", .real s.c1), ("c2", .real s.c2), ("wolfe", .flag s.wolfe),
    ("max_iter", .count s.maxIter), ("alpha_min", .real s.alphaMin),
    ("alpha_max", .real s.alphaMax)]

theorem assign_parameters (s t : Bisection α) : s.parameters.assign assign? t = .ok s := rfl

end Bisection

namespace MoreThuente

def assign? (s : MoreThuente α) (name : String) (v : Setting α) : Option (MoreThuente α) :=
  match name with
  | "alpha0" => v.real?.map fun alpha0 => { s with alpha0 }
  | "c1" => v.real?.map fun c1 => { s with c1 }
  | "c2" => v.real?.map fun c2 => { s with c2 }
  | "xtol" => v.real?.map fun xtol => { s with xtol }
  | "alpha_min" => v.real?.map fun alphaMin => { s with alphaMin }
  | "alpha_max" => v.real?.map fun alphaMax => { s with alphaMax }
  | "max_evals" => v.count?.map fun maxEvals => { s with maxEvals }
  | _ => none

omit [Scalar α] in
def parameters (s : MoreThuente α) : Settings α :=
  [("alpha0", .real s.alpha0), ("c1", .real s.c1), ("c2", .real s.c2), ("xtol", .real s.xtol),
    ("alpha_min", .real s.alphaMin), ("alpha_max", .real s.alphaMax),
    ("max_evals", .count s.maxEvals)]

theorem assign_parameters (s t : MoreThuente α) : s.parameters.assign assign? t = .ok s := rfl

end MoreThuente

namespace LineSearch

def assign? (s : LineSearch α) (name : String) (v : Setting α) : Option (LineSearch α) :=
  match s with
  | base => none
  | backtracking s => (s.assign? name v).map .backtracking
  | cubic s => (s.assign? name v).map .cubic
  | bisection s => (s.assign? name v).map .bisection
  | moreThuente s => (s.assign? name v).map .moreThuente

omit [Scalar α] in
def parameters : LineSearch α → Settings α
  | base => []
  | backtracking s => s.parameters
  | cubic s => s.parameters
  | bisection s => s.parameters
  | moreThuente s => s.parameters

def ofName? : String → Option (LineSearch α)
  | "backtracking" => some (.backtracking .standard)
  | "cubic" => some (.cubic .standard)
  | "bisection" => some (.bisection .standard)
  | "more_thuente" => some (.moreThuente (.standard 0.9))
  | _ => none

def create (name : String) (settings : Settings α) : Except (Fault α) (LineSearch α) := do
  settings.without ["name"]
  match ofName? (smallLetters name) with
  | none => throw (.setting (.lineSearchName name))
  | some s =>
    let s ← settings.assign assign? s
    s.check
    return s

theorem create_of_unknown {name : String} {settings : Settings α}
    (hs : settings.without ["name"] = .ok ())
    (h : (ofName? (smallLetters name) : Option (LineSearch α)) = none) :
    create name settings = .error (.setting (.lineSearchName name)) := by
  unfold create
  rw [hs, h]
  rfl

example : lineSearchNames.all fun n => (ofName? n : Option (LineSearch Float)).isSome := by decide

end LineSearch

namespace Method

def assign? (m : Method α) (name : String) (v : Setting α) : Option (Method α) :=
  match m, name with
  | newton s, "beta" => v.real?.map fun beta => newton { s with beta }
  | newton s, "growth" => v.real?.map fun growth => newton { s with growth }
  | newton s, "max_regularization_attempts" =>
    v.count?.map fun attempts => newton { s with attempts }
  | conjugateGradient _ k, "beta_rule" => v.text?.map (conjugateGradient · k)
  | conjugateGradient rule _, "restart_interval" => v.optionalCount?.map (conjugateGradient rule)
  | quasiNewton s, "m" => v.count?.map fun memory => quasiNewton { s with memory }
  | quasiNewton s, "curvature_threshold" =>
    v.real?.map fun threshold => quasiNewton { s with threshold }
  | _, _ => none

omit [Scalar α] in
def parameters : Method α → Settings α
  | base => []
  | newton s => [("beta", .real s.beta), ("growth", .real s.growth),
      ("max_regularization_attempts", .count s.attempts)]
  | conjugateGradient rule interval => [("beta_rule", .text rule),
      ("restart_interval", interval.elim .absent .count)]
  | quasiNewton s => [("m", .count s.memory), ("curvature_threshold", .real s.threshold)]

def ofName? : String → Option (Method α)
  | "newton" => some (.newton .standard)
  | "cg" => some standardConjugateGradient
  | "lbfgs" => some (.quasiNewton .standard)
  | _ => none

/-- The parameters of a method that its function takes. -/
def exposed : Method α → List String
  | base => []
  | newton _ => ["beta"]
  | conjugateGradient .. => ["beta_rule", "restart_interval"]
  | quasiNewton _ => ["m"]

/-- A parameter of the function of a method: a choice that all methods offer, or one of its own. -/
def assignArgument? (c : Method α × Choices α V M) (name : String) (v : Setting α) :
    Option (Method α × Choices α V M) :=
  match name with
  | "max_iters" => v.count?.map fun maxIters => (c.1, { c.2 with maxIters })
  | "tol" => v.real?.map fun tolerance => (c.1, { c.2 with tolerance })
  | "history" => v.flag?.map fun history => (c.1, { c.2 with history })
  | name =>
    if name ∈ c.1.exposed then (c.1.assign? name v).map fun m => (m, c.2) else none

/-- Calls the function of a method with arguments by name. -/
def call [Space α V] [Curved α V M] (m : Method α) (settings : Settings α)
    (search : Option (Searcher α V M)) (p : Problem α V M) (x : V) : Report α V :=
  match settings.assign assignArgument? (m, { (m.defaults : Choices α V M) with search }) with
  | .error f => .fault f
  | .ok (m, c) => m.minimize c p x

example : solverNames.all fun n => (ofName? n : Option (Method Float)).isSome := by decide

end Method

namespace Config

structure Draft (α : Type) where
  maxIters : Int
  tolerance : α
  history : Bool

def Draft.assign? (c : Draft α) (name : String) (v : Setting α) : Option (Draft α) :=
  match name with
  | "max_iters" => v.count?.map fun maxIters => { c with maxIters }
  | "gradient_tolerance" => v.real?.map fun tolerance => { c with tolerance }
  | "history" => v.flag?.map fun history => { c with history }
  | _ => none

def create (settings : Settings α) : Except (Fault α) (Config α) := do
  let draft : Draft α := ⟨defaultMaxIters, defaultTolerance, false⟩
  let draft ← settings.assign Draft.assign? draft
  make draft.maxIters draft.tolerance draft.history

end Config

namespace Solver

/-- A setting that a new solver takes by name. -/
def assign? (s : Solver α V) (name : String) (v : Setting α) : Option (Solver α V) :=
  match name with
  | "max_iters" => v.count?.map fun maxIters => { s with maxIters }
  | "gradient_tolerance" => v.real?.map fun tolerance => { s with tolerance }
  | "history" => v.flag?.map fun history => { s with history }
  | name => (s.method.assign? name v).map fun method => { s with method }

omit [Scalar α] in
def parameters (s : Solver α V) : Settings α :=
  [("max_iters", .count s.maxIters), ("gradient_tolerance", .real s.tolerance),
    ("line_search", s.lineSearch.elim .absent Guide.setting), ("history", .flag s.history)] ++
    s.method.parameters

/-- Changes a part of a solver without any check; a name that is no part changes nothing. The
shared settings as a whole cannot be replaced, and a result can only be dropped. -/
def set (s : Solver α V) (name : String) (v : Setting α) : Except (Fault α) (Solver α V) :=
  match name, v with
  | "config", _ => .error .noSuchPart
  | "result", .absent => .ok { s with result := none }
  | "line_search", v => .ok { s with lineSearch := Guide.ofSetting v }
  | name, v => .ok ((s.assign? name v).getD s)

def make (m : Method α) (lineSearch : Option (Guide α V)) (settings : Settings α) :
    Except (Fault α) (Solver α V) := do
  let s ← settings.assign assign? { standard m with lineSearch }
  s.check
  return s

def create (name : String) (lineSearch : Option (String ⊕ Guide α V))
    (settings : Settings α) : Except (Fault α) (Solver α V) := do
  settings.without ["name", "line_search"]
  match Method.ofName? (smallLetters name) with
  | none => throw (.setting (.solverName name))
  | some m =>
    match lineSearch with
    | none => make m none settings
    | some (.inl name) => make m (some (.search (← LineSearch.create name []))) settings
    | some (.inr g) => make m (some g) settings

end Solver

end Downhill
