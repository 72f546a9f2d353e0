import Downhill.Proofs.Ensures

/-! Computations that never fail, and computations whose only faults are numerical ones, which a run
turns into a status. The first are those in which nothing that was evaluated can raise a fault; the
second add the checks that a value is finite. -/
namespace Downhill
variable {α V τ β γ σ : Type}

/-- There is an answer; it has `Q`, together with the state that is left. -/
def Surely (Q : β → τ → Prop) : Except (Fault α) β → τ → Prop
  | .ok b, t => Q b t
  | .error _, _ => False

/-- An answer has `Q`, and a fault is a numerical one and leaves a state with `E`. -/
def Mildly (E : τ → Prop) (Q : β → τ → Prop) : Except (Fault α) β → τ → Prop
  | .ok b, t => Q b t
  | .error f, t => f.isNumerical = true ∧ E t

section Rules
variable {P : τ → Prop} {E : τ → Prop} {c : ExceptT (Fault α) (StateM τ) γ}
  {f : γ → ExceptT (Fault α) (StateM τ) β} {R : γ → τ → Prop} {Q : β → τ → Prop}
  {Q' : Except (Fault α) β → τ → Prop}

theorem Surely.bind (hc : Ensures P c (Surely R)) (hf : ∀ b, Ensures (R b) (f b) Q') :
    Ensures P (c >>= f) Q' :=
  .bind hc hf fun _ _ h => h.elim

theorem Mildly.bind (hc : Ensures P c (Mildly E R)) (hf : ∀ b, Ensures (R b) (f b) (Mildly E Q)) :
    Ensures P (c >>= f) (Mildly E Q) :=
  .bind hc hf fun _ _ h => h

theorem Surely.imp {R R' : γ → τ → Prop} (hc : Ensures P c (Surely R))
    (h : ∀ b t, R b t → R' b t) : Ensures P c (Surely R') := by
  refine .mono hc (fun _ ht => ht) fun r t hr => ?_
  cases r with
  | ok b => exact h b t hr
  | error f => exact hr

theorem Surely.mildly {R : γ → τ → Prop} (hc : Ensures P c (Surely R)) :
    Ensures P c (Mildly E R) := by
  refine .mono hc (fun _ h => h) fun r t h => ?_
  cases r with
  | ok b => exact h
  | error f => exact h.elim

theorem Mildly.imp {E' : τ → Prop} {Q Q' : γ → τ → Prop} (hc : Ensures P c (Mildly E Q))
    (hE : ∀ t, E t → E' t) (hQ : ∀ b t, Q b t → Q' b t) : Ensures P c (Mildly E' Q') := by
  refine .mono hc (fun _ ht => ht) fun r t hr => ?_
  cases r with
  | ok b => exact hQ b t hr
  | error f => exact ⟨hr.1, hE t hr.2⟩

/-- A fault that nothing allows is not raised. -/
theorem Mildly.surely {Q : γ → τ → Prop} (hc : Ensures P c (Mildly E Q)) (hE : ∀ t, ¬ E t) :
    Ensures P c (Surely Q) := by
  refine .mono hc (fun _ ht => ht) fun r t hr => ?_
  cases r with
  | ok b => exact hr
  | error f => exact hE t hr.2

end Rules

/-- The computation always has an answer, with `Q`. -/
def Replies (c : ExceptT (Fault α) (StateM τ) β) (Q : β → Prop) : Prop :=
  Ensures (fun _ => True) c (Surely fun b _ => Q b)

/-- The computation has answers with `Q`, and its faults are numerical. -/
def Mild (c : ExceptT (Fault α) (StateM τ) β) (Q : β → Prop) : Prop :=
  Ensures (fun _ => True) c (Mildly (fun _ => True) fun b _ => Q b)

namespace Replies
variable {c : ExceptT (Fault α) (StateM τ) γ} {f : γ → ExceptT (Fault α) (StateM τ) β}
  {R : γ → Prop} {Q : β → Prop}

theorem pure {b : β} (h : Q b) : Replies (pure b : ExceptT (Fault α) (StateM τ) β) Q :=
  Ensures.pure fun _ _ => h

theorem mono {c : ExceptT (Fault α) (StateM τ) β} {Q' : β → Prop} (h : Replies c Q)
    (hQ : ∀ b, Q b → Q' b) : Replies c Q' :=
  Surely.imp h fun b _ => hQ b

theorem bind (hc : Replies c R) (hf : ∀ b, R b → Replies (f b) Q) : Replies (c >>= f) Q :=
  Surely.bind hc fun b t hb => hf b hb t trivial

theorem ite {φ : Prop} [Decidable φ] {c c' : ExceptT (Fault α) (StateM τ) β}
    (h : φ → Replies c Q) (h' : ¬ φ → Replies c' Q) : Replies (if φ then c else c') Q :=
  Ensures.ite h h'

theorem exists_answer {c : ExceptT (Fault α) (StateM τ) β} (h : Replies c Q) (t : τ) :
    ∃ b t', c.run.run t = (.ok b, t') ∧ Q b := by
  have ht := h t trivial
  rcases hr : c.run.run t with ⟨f | b, t'⟩ <;> rw [hr] at ht
  · exact ht.elim
  · exact ⟨b, t', rfl, ht⟩

/-- The first round of a loop may be its last, and its answer that of the whole. -/
theorem upTo_first {round : σ → ExceptT (Fault α) (StateM τ) (σ ⊕ β)} {s : σ} {cap : ℕ}
    {after : σ ⊕ β → ExceptT (Fault α) (StateM τ) β} (hcap : 0 < cap)
    (h : Replies (round s) fun r => ∃ b, r = .inr b ∧ Q b)
    (hafter : ∀ b, after (.inr b) = Pure.pure b) :
    Replies (upTo round cap s >>= after) Q := by
  obtain ⟨cap, rfl⟩ := Nat.exists_eq_succ_of_ne_zero hcap.ne'
  have hloop : Replies (upTo round (cap + 1) s) fun r => ∃ b, r = .inr b ∧ Q b := by
    rw [upTo_succ]
    refine bind h ?_
    rintro _ ⟨b, rfl, hb⟩
    exact pure ⟨b, rfl, hb⟩
  refine bind hloop ?_
  rintro _ ⟨b, rfl, hb⟩
  rw [hafter]
  exact pure hb

/-- The entries are found one by one. -/
theorem ofFnM {n : ℕ} {f : Fin n → ExceptT (Fault α) (StateM τ) β} {Q : Fin n → β → Prop}
    (h : ∀ i, Replies (f i) (Q i)) : Replies (Vector.ofFnM f) fun v => ∀ i, Q i (v.get i) := by
  induction n with
  | zero =>
    rw [Vector.ofFnM_zero]
    exact .pure fun i => i.elim0
  | succ n ih =>
    rw [Vector.ofFnM_succ]
    refine .bind (ih fun i => h i.castSucc) fun as has => .bind (h _) fun a ha => .pure fun i => ?_
    cases i using Fin.lastCases with
    | last => simpa [Vector.get_eq_getElem] using ha
    | cast i => simpa [Vector.get_eq_getElem, Vector.getElem_push_lt] using has i

end Replies

namespace Mild
variable {c : ExceptT (Fault α) (StateM τ) γ} {f : γ → ExceptT (Fault α) (StateM τ) β}
  {R : γ → Prop} {Q : β → Prop}

theorem pure {b : β} (h : Q b) : Mild (pure b : ExceptT (Fault α) (StateM τ) β) Q :=
  Ensures.pure fun _ _ => h

theorem of_replies {c : ExceptT (Fault α) (StateM τ) β} (h : Replies c Q) : Mild c Q :=
  Surely.mildly h

theorem bind (hc : Mild c R) (hf : ∀ b, R b → Mild (f b) Q) : Mild (c >>= f) Q :=
  Mildly.bind hc fun b t hb => hf b hb t trivial

theorem ite {φ : Prop} [Decidable φ] {c c' : ExceptT (Fault α) (StateM τ) β}
    (h : φ → Mild c Q) (h' : ¬ φ → Mild c' Q) : Mild (if φ then c else c') Q :=
  Ensures.ite h h'

/-- A capped loop, and what follows it. -/
theorem loop {round : σ → ExceptT (Fault α) (StateM τ) (σ ⊕ γ)}
    {next : σ ⊕ γ → ExceptT (Fault α) (StateM τ) β} (hround : ∀ s, Mild (round s) fun _ => True)
    (cap : ℕ) (s : σ) (hnext : ∀ r, Mild (next r) Q) : Mild (upTo round cap s >>= next) Q := by
  refine bind (R := fun _ => True) (fun t _ => ?_) fun r _ => hnext r
  have hloop : Ensures (fun _ => True) (upTo round cap s)
      (Rounded (fun _ _ => True) (fun _ _ => True) fun f _ => f.isNumerical = true) := by
    refine Ensures.upTo (I := fun _ _ => True) (fun s t ht => ?_) cap s
    have h := hround s t ht
    rcases hr : ((round s).run.run t).1 with f | s' | b <;> rw [hr] at h
    exacts [h.1, trivial, trivial]
  have h := hloop t trivial
  rcases hr : ((upTo round cap s).run.run t).1 with f | r <;> rw [hr] at h
  exacts [⟨h, trivial⟩, trivial]

end Mild

namespace Eval
variable {Q : β → Prop}

theorem replies_ofExcept {e : Except (Fault α) β} {b : β} (h : e = .ok b) (hb : Q b) :
    Replies (ofExcept e : Eval α V β) Q := by
  rw [h]
  exact fun _ _ => hb

theorem mild_ofExcept {e : Except (Fault α) β} (hQ : ∀ b, e = .ok b → Q b)
    (hfault : ∀ f, e = .error f → f.isNumerical = true) : Mild (ofExcept e : Eval α V β) Q := by
  intro l _
  cases e with
  | ok b => exact hQ b rfl
  | error f => exact ⟨hfault f rfl, trivial⟩

end Eval

end Downhill
