import Downhill.Problem.Oracle

/-! Computations of machines: strategies and searches carry a state of their own beside the account
of evaluations, and both survive a fault. -/
namespace Downhill

/-- Computations with a state `σ` that evaluate a problem. -/
abbrev Act (σ α V : Type) : Type → Type := ExceptT (Fault α) (StateM (σ × Ledger α V))

namespace Act
variable {σ τ α V β : Type}

/-- A computation that only evaluates. -/
def ofEval (c : Eval α V β) : Act σ α V β :=
  ExceptT.mk fun s =>
    let (result, ledger) := c.run.run s.2
    (result, (s.1, ledger))

instance : MonadLift (Eval α V) (Act σ α V) := ⟨ofEval⟩

/-- A result that was found without evaluating anything. -/
def ofExcept (e : Except (Fault α) β) : Act σ α V β := ExceptT.mk fun s => (e, s)

def state : Act σ α V σ := ExceptT.mk fun s => (.ok s.1, s)

def setState (s : σ) : Act σ α V Unit := ExceptT.mk fun t => (.ok (), (s, t.2))

def modifyState (f : σ → σ) : Act σ α V Unit := ExceptT.mk fun t => (.ok (), (f t.1, t.2))

def remark (r : Remark α) : Act σ α V Unit := ofEval (Eval.remark r)

/-- A computation of a part of a larger state. -/
def within (part : σ → τ) (replace : τ → σ → σ) (c : Act τ α V β) : Act σ α V β :=
  ExceptT.mk fun s =>
    let (result, t) := c.run.run (part s.1, s.2)
    (result, (replace t.1 s.1, t.2))

def perform (c : Act σ α V β) (s : σ) (ledger : Ledger α V) :
    Except (Fault α) β × σ × Ledger α V :=
  c.run.run (s, ledger)

variable {γ : Type}

@[simp] theorem perform_pure (b : β) (s : σ) (l : Ledger α V) :
    perform (pure b : Act σ α V β) s l = (.ok b, s, l) := rfl

@[simp] theorem perform_throw (f : Fault α) (s : σ) (l : Ledger α V) :
    perform (throw f : Act σ α V β) s l = (.error f, s, l) := rfl

@[simp] theorem perform_ofExcept (e : Except (Fault α) β) (s : σ) (l : Ledger α V) :
    perform (ofExcept e) s l = (e, s, l) := rfl

@[simp] theorem perform_ofEval (c : Eval α V β) (s : σ) (l : Ledger α V) :
    perform (ofEval c) s l = ((c.perform l).1, s, (c.perform l).2) := rfl

@[simp] theorem perform_state (s : σ) (l : Ledger α V) :
    perform (state : Act σ α V σ) s l = (.ok s, s, l) := rfl

@[simp] theorem perform_setState (t s : σ) (l : Ledger α V) :
    perform (setState t) s l = (.ok (), t, l) := rfl

@[simp] theorem perform_modifyState (f : σ → σ) (s : σ) (l : Ledger α V) :
    perform (modifyState f) s l = (.ok (), f s, l) := rfl

@[simp] theorem perform_remark (r : Remark α) (s : σ) (l : Ledger α V) :
    perform (remark r) s l = (.ok (), s, { l with remarks := l.remarks.push r }) := rfl

/-- A part of the state changes and the rest stays, also on a fault. -/
@[simp] theorem perform_within (part : σ → τ) (replace : τ → σ → σ) (c : Act τ α V β) (s : σ)
    (l : Ledger α V) :
    perform (within part replace c) s l =
      ((c.perform (part s) l).1, replace (c.perform (part s) l).2.1 s,
        (c.perform (part s) l).2.2) := rfl

/-- A fault of the first part skips the second; state and account are kept either way. -/
theorem perform_bind (c : Act σ α V β) (f : β → Act σ α V γ) (s : σ) (l : Ledger α V) :
    perform (c >>= f) s l = match perform c s l with
      | (.ok b, s, l) => perform (f b) s l
      | (.error e, s, l) => (.error e, s, l) := by
  change (ExceptT.run (c >>= f)).run (s, l) = _
  cases h : perform c s l with
  | mk r t =>
    have h' : c.run.run (s, l) = (r, t) := h
    cases r <;> simp [ExceptT.run_bind, StateT.run_bind, h', perform] <;> rfl

end Act

end Downhill
