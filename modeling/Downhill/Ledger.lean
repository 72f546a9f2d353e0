import Downhill.Report

/-! The account that a computation keeps of its evaluations: how often the problem was evaluated,
which points a search or a strategy asked about, and the remarks made. The account survives a
fault, so a call that ends in one still shows what it did. -/
namespace Downhill

/-- How often value, gradient and Hessian of a problem were evaluated. -/
structure Evaluations where
  values : Nat := 0
  gradients : Nat := 0
  hessians : Nat := 0
  deriving Repr, DecidableEq

/-- A question put to a problem at a point. -/
inductive Request (V : Type) where
  | value (x : V)
  | gradient (x : V)
  | hessian (x : V)
  deriving Repr, DecidableEq

structure Ledger (α V : Type) where
  evaluations : Evaluations := {}
  requests : Array (Request V) := #[]
  remarks : Array (Remark α) := #[]

/-- Computations that evaluate a problem. -/
abbrev Eval (α V : Type) : Type → Type := ExceptT (Fault α) (StateM (Ledger α V))

namespace Ledger
variable {α V : Type}

def valuePoints (l : Ledger α V) : List V :=
  l.requests.toList.filterMap fun
    | .value x => some x
    | _ => none

def gradientPoints (l : Ledger α V) : List V :=
  l.requests.toList.filterMap fun
    | .gradient x => some x
    | _ => none

end Ledger

namespace Eval
variable {α V : Type}

def countValue : Eval α V Unit :=
  modify fun l => { l with evaluations.values := l.evaluations.values + 1 }

def countGradient : Eval α V Unit :=
  modify fun l => { l with evaluations.gradients := l.evaluations.gradients + 1 }

def countHessian : Eval α V Unit :=
  modify fun l => { l with evaluations.hessians := l.evaluations.hessians + 1 }

def request (r : Request V) : Eval α V Unit :=
  modify fun l => { l with requests := l.requests.push r }

def remark (r : Remark α) : Eval α V Unit :=
  modify fun l => { l with remarks := l.remarks.push r }

/-- A result that was found without evaluating anything. -/
def ofExcept {β : Type} (e : Except (Fault α) β) : Eval α V β := ExceptT.mk (pure e)

def perform {β : Type} (c : Eval α V β) (l : Ledger α V) : Except (Fault α) β × Ledger α V :=
  c.run.run l

def start {β : Type} (c : Eval α V β) : Except (Fault α) β × Ledger α V := perform c {}

variable {β γ : Type}

@[simp] theorem perform_pure (b : β) (l : Ledger α V) :
    perform (pure b : Eval α V β) l = (.ok b, l) := rfl

@[simp] theorem perform_throw (f : Fault α) (l : Ledger α V) :
    perform (throw f : Eval α V β) l = (.error f, l) := rfl

@[simp] theorem perform_ofExcept (e : Except (Fault α) β) (l : Ledger α V) :
    perform (ofExcept e) l = (e, l) := rfl

@[simp] theorem perform_request (r : Request V) (l : Ledger α V) :
    perform (request r) l = (.ok (), { l with requests := l.requests.push r }) := rfl

@[simp] theorem perform_remark (r : Remark α) (l : Ledger α V) :
    perform (remark r) l = (.ok (), { l with remarks := l.remarks.push r }) := rfl

/-- A fault of the first part skips the second, and the account is kept either way. -/
theorem perform_bind (c : Eval α V β) (f : β → Eval α V γ) (l : Ledger α V) :
    perform (c >>= f) l = match perform c l with
      | (.ok b, l) => perform (f b) l
      | (.error e, l) => (.error e, l) := by
  change (ExceptT.run (c >>= f)).run l = _
  cases h : perform c l with
  | mk r l' =>
    have h' : c.run.run l = (r, l') := h
    cases r <;> simp [ExceptT.run_bind, StateT.run_bind, h', perform] <;> rfl

end Eval

end Downhill
