import Downhill.Proofs.Alike

/-! Computations in lockstep: from related states both end with the same answer or raise the same
fault, and their states are related again. Where a fault or an answer decides what is done next,
both do the same; so the rules are those of one computation. A machine in lockstep relates its own
state and the account, each by a relation of its own. -/
namespace Downhill
variable {ε τ τ' β γ σ α V : Type}

/-- From states related by `R` both computations end with the same result, in related states. -/
def Lockstep (R : τ → τ' → Prop) (c : ExceptT ε (StateM τ) β) (c' : ExceptT ε (StateM τ') β) :
    Prop :=
  Alike R c c' (fun b t b' t' => b' = b ∧ R t t') R

namespace Lockstep
variable {R : τ → τ' → Prop} {c d : ExceptT ε (StateM τ) β} {c' d' : ExceptT ε (StateM τ') β}

theorem exists_ends (h : Lockstep R c c') {t : τ} {t' : τ'} (ht : R t t') :
    ∃ r u u', c.run.run t = (r, u) ∧ c'.run.run t' = (r, u') ∧ R u u' := by
  have hends := h t t' ht
  generalize c.run.run t = x, c'.run.run t' = x' at hends ⊢
  rcases x with ⟨e | b, u⟩ <;> rcases x' with ⟨e' | b', u'⟩
  · obtain ⟨rfl, hu⟩ := hends
    exact ⟨_, u, u', rfl, rfl, hu⟩
  · exact hends.elim
  · exact hends.elim
  · obtain ⟨rfl, hu⟩ := hends
    exact ⟨_, u, u', rfl, rfl, hu⟩

theorem refl (c : ExceptT ε (StateM τ) β) : Lockstep Eq c c := by
  rintro t _ rfl
  rcases c.run.run t with ⟨e | b, u⟩ <;> exact ⟨rfl, rfl⟩

theorem pure (b : β) :
    Lockstep R (pure b : ExceptT ε (StateM τ) β) (pure b : ExceptT ε (StateM τ') β) :=
  Alike.pure fun _ _ ht => ⟨rfl, ht⟩

theorem throw (e : ε) :
    Lockstep R (throw e : ExceptT ε (StateM τ) β) (throw e : ExceptT ε (StateM τ') β) :=
  Alike.throw e fun _ _ ht => ht

theorem bind {c : ExceptT ε (StateM τ) γ} {c' : ExceptT ε (StateM τ') γ}
    {f : γ → ExceptT ε (StateM τ) β} {f' : γ → ExceptT ε (StateM τ') β} (hc : Lockstep R c c')
    (hf : ∀ b, Lockstep R (f b) (f' b)) : Lockstep R (c >>= f) (c' >>= f') := by
  refine Alike.bind hc fun b b' => .of_known (fun _ _ h => h) ?_
  rintro rfl
  exact hf b'

theorem ite {φ : Prop} [Decidable φ] (h : Lockstep R c c') (hno : Lockstep R d d') :
    Lockstep R (if φ then c else d) (if φ then c' else d') :=
  Alike.ite Iff.rfl (fun _ => h) fun _ => hno

theorem upTo {round : σ → ExceptT ε (StateM τ) (σ ⊕ β)}
    {round' : σ → ExceptT ε (StateM τ') (σ ⊕ β)} (h : ∀ s, Lockstep R (round s) (round' s))
    (cap : ℕ) (s : σ) : Lockstep R (upTo round cap s) (upTo round' cap s) := by
  induction cap generalizing s with
  | zero => exact pure _
  | succ cap ih =>
    rw [upTo_succ, upTo_succ]
    refine bind (h s) fun r => ?_
    cases r with
    | inl s => exact ih s
    | inr b => exact pure _

/-- Capped loops, and what follows them. -/
theorem rounds {round : σ → ExceptT ε (StateM τ) (σ ⊕ γ)}
    {round' : σ → ExceptT ε (StateM τ') (σ ⊕ γ)} {next : σ ⊕ γ → ExceptT ε (StateM τ) β}
    {next' : σ ⊕ γ → ExceptT ε (StateM τ') β} (h : ∀ s, Lockstep R (round s) (round' s)) (cap : ℕ)
    (s : σ) (hnext : ∀ r, Lockstep R (next r) (next' r)) :
    Lockstep R (Downhill.upTo round cap s >>= next) (Downhill.upTo round' cap s >>= next') :=
  bind (upTo h cap s) hnext

theorem ofFnM {n : ℕ} {f : Fin n → ExceptT ε (StateM τ) β} {f' : Fin n → ExceptT ε (StateM τ') β}
    (h : ∀ i, Lockstep R (f i) (f' i)) : Lockstep R (Vector.ofFnM f) (Vector.ofFnM f') := by
  induction n with
  | zero =>
    rw [Vector.ofFnM_zero, Vector.ofFnM_zero]
    exact pure _
  | succ n ih =>
    rw [Vector.ofFnM_succ, Vector.ofFnM_succ]
    exact bind (ih fun i => h i.castSucc) fun _ => bind (h _) fun _ => pure _

end Lockstep

theorem Eval.lockstep_ofExcept {L : Ledger α V → Ledger α V → Prop} (e : Except (Fault α) β) :
    Lockstep L (ofExcept e : Eval α V β) (ofExcept e) := by
  cases e with
  | ok b => exact .pure b
  | error f => exact .throw f

/-- Machines side by side: their states are related by `S` and their accounts by `L`. -/
def Beside (S : σ → σ → Prop) (L : Ledger α V → Ledger α V → Prop) (t t' : σ × Ledger α V) :
    Prop :=
  S t.1 t'.1 ∧ L t.2 t'.2

namespace Act
variable {S : σ → σ → Prop} {L : Ledger α V → Ledger α V → Prop}

theorem lockstep_ofEval {c c' : Eval α V β} (h : Lockstep L c c') :
    Lockstep (Beside S L) (ofEval c : Act σ α V β) (ofEval c') := by
  rintro ⟨st, l⟩ ⟨st', l'⟩ ⟨hst, hl⟩
  obtain ⟨r, u, u', hc, hc', hu⟩ := h.exists_ends hl
  change Both _ _ ((c.run.run l).1, (st, (c.run.run l).2))
    ((c'.run.run l').1, (st', (c'.run.run l').2))
  rw [hc, hc']
  cases r with
  | ok b => exact ⟨rfl, hst, hu⟩
  | error e => exact ⟨rfl, hst, hu⟩

theorem lockstep_ofExcept (e : Except (Fault α) β) :
    Lockstep (Beside S L) (ofExcept e : Act σ α V β) (ofExcept e) := by
  cases e with
  | ok b => exact .pure b
  | error f => exact .throw f

/-- Both machines look at their states. -/
theorem lockstep_state {f f' : σ → Act σ α V β}
    (hf : ∀ st st', S st st' → Lockstep (Beside S L) (f st) (f' st')) :
    Lockstep (Beside S L) (state >>= f) (state >>= f') :=
  fun t t' ht => hf t.1 t'.1 ht.1 t t' ht

theorem lockstep_modifyState {f f' : σ → σ} (h : ∀ st st', S st st' → S (f st) (f' st')) :
    Lockstep (Beside S L) (modifyState f : Act σ α V Unit) (modifyState f') :=
  fun _ _ ht => ⟨rfl, h _ _ ht.1, ht.2⟩

/-- A part of two larger states, where the rest stays as it is. -/
theorem lockstep_within {T : τ → τ → Prop} {part : τ → σ} {replace : σ → τ → τ} {c c' : Act σ α V β}
    (h : Lockstep (Beside S L) c c') (hpart : ∀ t t', T t t' → S (part t) (part t'))
    (hreplace : ∀ t t' st st', T t t' → S st st' → T (replace st t) (replace st' t')) :
    Lockstep (Beside T L) (within part replace c) (within part replace c') := by
  rintro ⟨t, l⟩ ⟨t', l'⟩ ⟨ht, hl⟩
  have hparts : Beside S L (part t, l) (part t', l') := ⟨hpart t t' ht, hl⟩
  obtain ⟨r, u, u', hc, hc', hu⟩ := h.exists_ends hparts
  change Both _ _ ((within part replace c).perform t l) ((within part replace c').perform t' l')
  rw [perform_within, perform_within, perform, perform, hc, hc']
  cases r with
  | ok b => exact ⟨rfl, hreplace t t' u.1 u'.1 ht hu.1, hu.2⟩
  | error e => exact ⟨rfl, hreplace t t' u.1 u'.1 ht hu.1, hu.2⟩

end Act

end Downhill
