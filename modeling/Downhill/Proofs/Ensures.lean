import Mathlib
import Downhill.Act
import Downhill.Loop

/-! Statements about what computations leave behind. `Ensures P c Q` says that from every state
with `P` the computation `c` leaves a state which, together with its answer or its fault, has `Q`.
The rules follow the way computations are put together; a capped loop keeps what each of its
rounds keeps. `Yields c Q` says of the answers alone that they have `Q`. -/
namespace Downhill
variable {ε τ β γ σ : Type}

/-- From every state with `P` the computation leaves a state that, with its answer or its fault,
has `Q`. -/
def Ensures (P : τ → Prop) (c : ExceptT ε (StateM τ) β) (Q : Except ε β → τ → Prop) : Prop :=
  ∀ t, P t → Q (c.run.run t).1 (c.run.run t).2

/-- A statement about answers only; nothing is said of faults. -/
def Answered (Q : β → τ → Prop) : Except ε β → τ → Prop
  | .ok b, t => Q b t
  | .error _, _ => True

/-- A statement about a round of a loop: what holds where it goes on, where it ends with a result
and where it ends with a fault. -/
def Rounded (I : σ → τ → Prop) (Q : β → τ → Prop) (E : ε → τ → Prop) :
    Except ε (σ ⊕ β) → τ → Prop
  | .ok (.inl s), t => I s t
  | .ok (.inr b), t => Q b t
  | .error e, t => E e t

/-- A capped loop ends with its last round. -/
theorem upTo_succ_last {f : Type → Type} [Monad f] [LawfulMonad f] (round : σ → f (σ ⊕ β))
    (cap : ℕ) (s : σ) : upTo round (cap + 1) s = (do
      match ← upTo round cap s with
      | .inl s => round s
      | .inr b => Pure.pure (.inr b)) := by
  induction cap generalizing s with
  | zero =>
    rw [upTo_succ, upTo_zero, pure_bind]
    refine Eq.trans ?_ (bind_pure (round s))
    congr
    funext r
    cases r <;> rfl
  | succ cap ih =>
    rw [upTo_succ, upTo_succ round cap, bind_assoc]
    congr
    funext r
    cases r with
    | inl s => exact ih s
    | inr b => simp only [pure_bind]

theorem upTo_one {f : Type → Type} [Monad f] [LawfulMonad f] (round : σ → f (σ ⊕ β)) (s : σ) :
    upTo round 1 s = round s := by
  rw [upTo_succ_last, upTo_zero, pure_bind]

/-- A fault of the first part skips the second. -/
theorem run_run_bind (c : ExceptT ε (StateM τ) γ) (f : γ → ExceptT ε (StateM τ) β) (t : τ) :
    (c >>= f).run.run t = match c.run.run t with
      | (.ok b, t) => (f b).run.run t
      | (.error e, t) => (.error e, t) := by
  rw [ExceptT.run_bind, StateT.run_bind]
  change (match (c.run.run t).1 with | _ => _) = _
  cases c.run.run t with
  | mk r t => cases r <;> rfl

namespace Ensures
variable {P P' : τ → Prop} {Q Q' : Except ε β → τ → Prop}

theorem mono {c : ExceptT ε (StateM τ) β} (h : Ensures P c Q) (hP : ∀ t, P' t → P t)
    (hQ : ∀ r t, Q r t → Q' r t) : Ensures P' c Q' :=
  fun t ht => hQ _ _ (h t (hP t ht))

theorem pure {b : β} (h : ∀ t, P t → Q (.ok b) t) :
    Ensures P (pure b : ExceptT ε (StateM τ) β) Q := h

theorem throw {e : ε} (h : ∀ t, P t → Q (.error e) t) :
    Ensures P (throw e : ExceptT ε (StateM τ) β) Q := h

theorem known {φ : Prop} {c : ExceptT ε (StateM τ) β} (h : φ) :
    Ensures P c (Answered fun _ _ => φ) := by
  intro t _
  cases (c.run.run t).1 with
  | ok b => exact h
  | error e => trivial

theorem of_fact {φ : Prop} {c : ExceptT ε (StateM τ) β} (h : φ → Ensures P c Q) :
    Ensures (fun t => φ ∧ P t) c Q :=
  fun t ht => h ht.1 t ht.2

/-- A fact that the states before the computation have in common. -/
theorem of_known {φ : Prop} {R : τ → Prop} {c : ExceptT ε (StateM τ) β} (hP : ∀ t, P t → φ ∧ R t)
    (h : φ → Ensures R c Q) : Ensures P c Q :=
  fun t ht => h (hP t ht).1 t (hP t ht).2

theorem ite {φ : Prop} [Decidable φ] {c c' : ExceptT ε (StateM τ) β} (h : φ → Ensures P c Q)
    (h' : ¬ φ → Ensures P c' Q) : Ensures P (if φ then c else c') Q := by
  by_cases hφ : φ
  · simpa only [if_pos hφ] using h hφ
  · simpa only [if_neg hφ] using h' hφ

/-- What the first part leaves is the start of the second; a fault of the first skips the
second. -/
theorem bind {c : ExceptT ε (StateM τ) γ} {f : γ → ExceptT ε (StateM τ) β}
    {R : Except ε γ → τ → Prop} (hc : Ensures P c R) (hf : ∀ b, Ensures (R (.ok b)) (f b) Q)
    (he : ∀ e t, R (.error e) t → Q (.error e) t) : Ensures P (c >>= f) Q := by
  intro t ht
  have h := hc t ht
  rw [run_run_bind]
  cases hr : c.run.run t with
  | mk r t' =>
    rw [hr] at h
    cases r with
    | ok b => exact hf b t' h
    | error e => exact he e t' h

/-- A capped loop, with an invariant that counts the rounds. -/
theorem upTo_counted {round : σ → ExceptT ε (StateM τ) (σ ⊕ β)} {I : ℕ → σ → τ → Prop}
    {R : β → τ → Prop} {E : ε → τ → Prop} {cap : ℕ}
    (h : ∀ k < cap, ∀ s, Ensures (I k s) (round s) (Rounded (I (k + 1)) R E)) (s : σ) :
    Ensures (I 0 s) (upTo round cap s) (Rounded (I cap) R E) := by
  induction cap with
  | zero => exact pure fun t ht => ht
  | succ cap ih =>
    rw [upTo_succ_last]
    refine bind (ih fun k hk => h k (Nat.lt_succ_of_lt hk)) (fun r => ?_) (fun e t ht => ht)
    cases r with
    | inl s => exact h cap (Nat.lt_succ_self cap) s
    | inr b => exact pure fun t ht => ht

/-- A capped loop keeps the invariant of its rounds. -/
theorem upTo {round : σ → ExceptT ε (StateM τ) (σ ⊕ β)} {I : σ → τ → Prop} {R : β → τ → Prop}
    {E : ε → τ → Prop} (h : ∀ s, Ensures (I s) (round s) (Rounded I R E)) (cap : ℕ) (s : σ) :
    Ensures (I s) (upTo round cap s) (Rounded I R E) :=
  upTo_counted (I := fun _ => I) (fun _ _ => h) s

/-- The same for a first part whose answer is known; nothing is said of its faults. -/
theorem bind_of_eq {c : ExceptT ε (StateM τ) γ} {f : γ → ExceptT ε (StateM τ) β}
    {e : Except ε γ} (hc : Ensures P c fun r t => r = e ∧ P' t)
    (hf : ∀ b, e = .ok b → Ensures P' (f b) Q) (he : ∀ f t, Q (.error f) t) :
    Ensures P (c >>= f) Q :=
  bind hc (fun b => .of_fact fun h => hf b h.symm) fun f t _ => he f t

end Ensures

/-- The computation has answers with `Q` only. -/
def Yields (c : ExceptT ε (StateM τ) β) (Q : β → Prop) : Prop :=
  Ensures (fun _ => True) c (Answered fun b _ => Q b)

namespace Yields
variable {Q : β → Prop} {R : γ → Prop}

theorem pure {b : β} (h : Q b) : Yields (pure b : ExceptT ε (StateM τ) β) Q :=
  Ensures.pure fun _ _ => h

theorem throw (e : ε) : Yields (throw e : ExceptT ε (StateM τ) β) Q :=
  Ensures.throw fun _ _ => trivial

theorem bind {c : ExceptT ε (StateM τ) γ} {f : γ → ExceptT ε (StateM τ) β} (hc : Yields c R)
    (hf : ∀ b, R b → Yields (f b) Q) : Yields (c >>= f) Q :=
  Ensures.bind hc (fun b _ hb => hf b hb _ trivial) fun _ _ _ => trivial

theorem any {c : ExceptT ε (StateM τ) β} : Yields c fun _ => True :=
  Ensures.known trivial

theorem mono {Q' : β → Prop} {c : ExceptT ε (StateM τ) β} (h : Yields c Q)
    (hQ : ∀ b, Q b → Q' b) : Yields c Q' := by
  refine Ensures.mono h (fun _ ht => ht) fun r _ hr => ?_
  cases r with
  | ok b => exact hQ b hr
  | error e => trivial

theorem ite {φ : Prop} [Decidable φ] {c c' : ExceptT ε (StateM τ) β} (h : φ → Yields c Q)
    (h' : ¬ φ → Yields c' Q) : Yields (if φ then c else c') Q :=
  Ensures.ite h h'

section Loops
variable {I : σ → Prop} {round : σ → ExceptT ε (StateM τ) (σ ⊕ γ)} {s : σ}
  (hround : ∀ s, I s → Yields (round s) (Sum.elim I R)) (hs : I s) (cap : ℕ)
include hround hs

/-- A capped loop. -/
theorem upTo : Yields (upTo round cap s) (Sum.elim I R) := by
  have hloop : ∀ s, Ensures (fun _ => I s) (Downhill.upTo round cap s)
      (Rounded (fun s _ => I s) (fun b _ => R b) fun _ _ => True) := by
    refine Ensures.upTo (I := fun s _ => I s) (fun s t ht => ?_) cap
    have h := hround s ht t trivial
    rcases hr : ((round s).run.run t).1 with e | s' | b <;> rw [hr] at h <;> exact h
  intro t _
  have h := hloop s t hs
  rcases hr : ((Downhill.upTo round cap s).run.run t).1 with e | s' | b <;> rw [hr] at h <;>
    exact h

/-- A capped loop, and what follows it. -/
theorem rounds {next : σ ⊕ γ → ExceptT ε (StateM τ) β}
    (hnext : ∀ r, Sum.elim I R r → Yields (next r) Q) :
    Yields (Downhill.upTo round cap s >>= next) Q :=
  bind (upTo hround hs cap) hnext

end Loops

end Yields

theorem Eval.ensures_ofExcept {α V : Type} {P : Ledger α V → Prop} (e : Except (Fault α) β) :
    Ensures P (Eval.ofExcept e) fun r l => r = e ∧ P l := fun _ hl => ⟨rfl, hl⟩

theorem Eval.yields_ofExcept {α V : Type} (e : Except (Fault α) β) :
    Yields (ofExcept e : Eval α V β) fun b => e = .ok b := by
  intro l _
  cases e with
  | ok b => exact rfl
  | error f => trivial

theorem bind_eq_ok_iff {x : Except ε γ} {f : γ → Except ε β} {b : β} :
    x >>= f = .ok b ↔ ∃ a, x = .ok a ∧ f a = .ok b := by
  cases x with
  | ok a => exact ⟨fun h => ⟨a, rfl, h⟩, fun ⟨_, ha, h⟩ => by cases ha; exact h⟩
  | error e => exact ⟨nofun, nofun⟩

end Downhill
