import Downhill.Proofs.Ensures

/-! Two computations side by side. `Alike P c c' A E` says that from every two states related by `P`
either both computations answer, and answers and states are related by `A`, or both raise the same
fault, in states related by `E`. The rules are those of one computation; a condition that splits one
of the two splits the other in the same way. For evaluations of a problem the states are accounts,
and `Matches B c c'` says that they count the same. -/
namespace Downhill
variable {ε τ τ' β β' γ γ' σ σ' : Type}

/-- Two ways to end: with related answers, or with the same fault. -/
def Both (A : β → τ → β' → τ' → Prop) (E : τ → τ' → Prop) :
    Except ε β × τ → Except ε β' × τ' → Prop
  | (.ok b, t), (.ok b', t') => A b t b' t'
  | (.error e, t), (.error e', t') => e' = e ∧ E t t'
  | _, _ => False

theorem Both.mono {A B : β → τ → β' → τ' → Prop} {E F : τ → τ' → Prop} {x : Except ε β × τ}
    {x' : Except ε β' × τ'} (h : Both A E x x') (hA : ∀ b t b' t', A b t b' t' → B b t b' t')
    (hE : ∀ t t', E t t' → F t t') : Both B F x x' := by
  rcases x with ⟨e | b, t⟩ <;> rcases x' with ⟨e' | b', t'⟩
  · exact ⟨h.1, hE t t' h.2⟩
  · exact h
  · exact h
  · exact hA b t b' t' h

/-- From states related by `P` the two computations end in related ways. -/
def Alike (P : τ → τ' → Prop) (c : ExceptT ε (StateM τ) β) (c' : ExceptT ε (StateM τ') β')
    (A : β → τ → β' → τ' → Prop) (E : τ → τ' → Prop) : Prop :=
  ∀ t t', P t t' → Both A E (c.run.run t) (c'.run.run t')

namespace Alike
variable {P R : τ → τ' → Prop} {c : ExceptT ε (StateM τ) β} {c' : ExceptT ε (StateM τ') β'}
  {A B : β → τ → β' → τ' → Prop} {E F : τ → τ' → Prop}

theorem mono (h : Alike P c c' A E) (hP : ∀ t t', R t t' → P t t')
    (hA : ∀ b t b' t', A b t b' t' → B b t b' t') (hE : ∀ t t', E t t' → F t t') :
    Alike R c c' B F :=
  fun t t' ht => (h t t' (hP t t' ht)).mono hA hE

theorem pure {b : β} {b' : β'} (h : ∀ t t', P t t' → A b t b' t') :
    Alike P (pure b : ExceptT ε (StateM τ) β) (pure b' : ExceptT ε (StateM τ') β') A E := h

theorem throw (e : ε) (h : ∀ t t', P t t' → E t t') :
    Alike P (throw e : ExceptT ε (StateM τ) β) (throw e : ExceptT ε (StateM τ') β') A E :=
  fun t t' ht => ⟨rfl, h t t' ht⟩

/-- What the first parts leave is where the second ones start; a fault of the first parts skips the
second ones. -/
theorem bind {d : ExceptT ε (StateM τ) γ} {d' : ExceptT ε (StateM τ') γ'}
    {D : γ → τ → γ' → τ' → Prop} {f : γ → ExceptT ε (StateM τ) β}
    {f' : γ' → ExceptT ε (StateM τ') β'} (hd : Alike P d d' D E)
    (hf : ∀ b b', Alike (fun t t' => D b t b' t') (f b) (f' b') A E) :
    Alike P (d >>= f) (d' >>= f') A E := by
  intro t t' ht
  have hends := hd t t' ht
  rw [run_run_bind, run_run_bind]
  generalize d.run.run t = x, d'.run.run t' = x' at hends ⊢
  rcases x with ⟨e | b, s⟩ <;> rcases x' with ⟨e' | b', s'⟩
  · exact hends
  · exact hends.elim
  · exact hends.elim
  · exact hf b b' s s' hends

theorem ite {φ φ' : Prop} [Decidable φ] [Decidable φ'] {d : ExceptT ε (StateM τ) β}
    {d' : ExceptT ε (StateM τ') β'} (hφ : φ' ↔ φ) (h : φ → Alike P c c' A E)
    (hno : ¬ φ → Alike P d d' A E) :
    Alike P (if φ then c else d) (if φ' then c' else d') A E := by
  by_cases hc : φ
  · simpa only [if_pos hc, if_pos (hφ.mpr hc)] using h hc
  · simpa only [if_neg hc, if_neg (mt hφ.mp hc)] using hno hc

/-- A fact that related states have in common. -/
theorem of_known {φ : Prop} (hP : ∀ t t', P t t' → φ ∧ R t t') (h : φ → Alike R c c' A E) :
    Alike P c c' A E :=
  fun t t' ht => h (hP t t' ht).1 t t' (hP t t' ht).2

/-- Capped loops keep in step as their rounds do. -/
theorem upTo {round : σ → ExceptT ε (StateM τ) (σ ⊕ β)}
    {round' : σ' → ExceptT ε (StateM τ') (σ' ⊕ β')} {I : σ → τ → σ' → τ' → Prop}
    (h : ∀ s s', Alike (fun t t' => I s t s' t') (round s) (round' s')
      (fun r t r' t' => Sum.LiftRel (fun s s' => I s t s' t') (fun b b' => A b t b' t') r r') E)
    (cap : ℕ) (s : σ) (s' : σ') :
    Alike (fun t t' => I s t s' t') (upTo round cap s) (upTo round' cap s')
      (fun r t r' t' => Sum.LiftRel (fun s s' => I s t s' t') (fun b b' => A b t b' t') r r')
      E := by
  induction cap generalizing s s' with
  | zero => exact pure fun t t' ht => .inl ht
  | succ cap ih =>
    rw [upTo_succ, upTo_succ]
    refine bind (h s s') fun r r' => ?_
    rcases r with s | b <;> rcases r' with s' | b'
    · refine (ih s s').mono (fun t t' ht => ?_) (fun _ _ _ _ h => h) fun _ _ h => h
      obtain ⟨h⟩ := ht
      exact h
    · exact fun t t' ht => absurd ht Sum.not_liftRel_inl_inr
    · exact fun t t' ht => absurd ht Sum.not_liftRel_inr_inl
    · refine pure fun t t' ht => ?_
      obtain ⟨⟩ | ⟨h⟩ := ht
      exact .inr h

end Alike

section Evaluations
variable {α V : Type}

/-- The two accounts count as many evaluations. -/
def SameCount (l l' : Ledger α V) : Prop := l'.evaluations = l.evaluations

/-- The two evaluations end with answers related by `B` or with the same fault, and keep accounts
that count the same. -/
def Eval.Matches (B : β → β' → Prop) (c : Eval α V β) (c' : Eval α V β') : Prop :=
  Alike SameCount c c' (fun b l b' l' => B b b' ∧ SameCount l l') SameCount

namespace Eval.Matches
variable {B : β → β' → Prop} {C : γ → γ' → Prop} {c d : Eval α V β} {c' d' : Eval α V β'}

theorem pure {b : β} {b' : β'} (h : B b b') :
    Matches B (pure b : Eval α V β) (pure b' : Eval α V β') :=
  Alike.pure fun _ _ hl => ⟨h, hl⟩

theorem throw (e : Fault α) : Matches B (throw e : Eval α V β) (throw e : Eval α V β') :=
  Alike.throw e fun _ _ hl => hl

theorem bind {c : Eval α V γ} {c' : Eval α V γ'} {f : γ → Eval α V β} {f' : γ' → Eval α V β'}
    (hc : Matches C c c') (hf : ∀ b b', C b b' → Matches B (f b) (f' b')) :
    Matches B (c >>= f) (c' >>= f') :=
  Alike.bind hc fun b b' => .of_known (fun _ _ h => h) (hf b b')

/-- The same where both answers are known. -/
theorem next {c : Eval α V γ} {c' : Eval α V γ'} {f : γ → Eval α V β} {f' : γ' → Eval α V β'}
    {b : γ} {b' : γ'} (hc : Matches (fun a a' => a = b ∧ a' = b') c c')
    (hf : Matches B (f b) (f' b')) : Matches B (c >>= f) (c' >>= f') := by
  refine bind hc fun a a' h => ?_
  rw [h.1, h.2]
  exact hf

theorem ite {φ φ' : Prop} [Decidable φ] [Decidable φ'] (hφ : φ' ↔ φ) (h : φ → Matches B c c')
    (hno : ¬ φ → Matches B d d') : Matches B (if φ then c else d) (if φ' then c' else d') :=
  Alike.ite hφ h hno

/-- Results that are known. -/
theorem of_ok {x : Except (Fault α) γ} {x' : Except (Fault α) γ'} {f : γ → Eval α V β}
    {f' : γ' → Eval α V β'} {b : γ} {b' : γ'} (hx : x = .ok b) (hx' : x' = .ok b')
    (hf : Matches B (f b) (f' b')) : Matches B (ofExcept x >>= f) (ofExcept x' >>= f') := by
  rw [hx, hx']
  exact hf

/-- The same result on both sides, which may be a fault. -/
theorem of_eq {x x' : Except (Fault α) γ} {f : γ → Eval α V β} {f' : γ → Eval α V β'}
    (hx : x' = x) (hf : ∀ b, x = .ok b → Matches B (f b) (f' b)) :
    Matches B (ofExcept x >>= f) (ofExcept x' >>= f') := by
  subst hx
  cases hb : x' with
  | ok b => exact hf b hb
  | error e => exact throw e

theorem request (r r' : Request V) :
    Matches (fun _ _ => True) (request r : Eval α V Unit) (request r') :=
  fun _ _ hl => ⟨trivial, hl⟩

/-- Capped loops, and what follows them. -/
theorem rounds {I : σ → σ' → Prop} {round : σ → Eval α V (σ ⊕ γ)}
    {round' : σ' → Eval α V (σ' ⊕ γ')} {next : σ ⊕ γ → Eval α V β} {next' : σ' ⊕ γ' → Eval α V β'}
    {s : σ} {s' : σ'} (hround : ∀ s s', I s s' → Matches (Sum.LiftRel I C) (round s) (round' s'))
    (hs : I s s') (cap : ℕ)
    (hnext : ∀ r r', Sum.LiftRel I C r r' → Matches B (next r) (next' r')) :
    Matches B (upTo round cap s >>= next) (upTo round' cap s' >>= next') := by
  have hloop : Alike _ (Downhill.upTo round cap s) (Downhill.upTo round' cap s') _ _ :=
    Alike.upTo (I := fun s l s' l' => I s s' ∧ SameCount l l')
      (A := fun b l b' l' => C b b' ∧ SameCount l l') (E := SameCount)
      (fun s s' => .of_known (fun _ _ h => h) fun hs => ?_) cap s s'
  · refine bind (C := Sum.LiftRel I C) (hloop.mono (fun _ _ h => ⟨hs, h⟩) ?_ fun _ _ h => h) hnext
    rintro _ l _ l' (⟨h⟩ | ⟨h⟩)
    · exact ⟨.inl h.1, h.2⟩
    · exact ⟨.inr h.1, h.2⟩
  · refine (hround s s' hs).mono (fun _ _ h => h) ?_ fun _ _ h => h
    rintro _ l _ l' ⟨⟨h⟩ | ⟨h⟩, hl⟩
    · exact .inl ⟨h, hl⟩
    · exact .inr ⟨h, hl⟩

/-- The answers on fresh accounts are related. -/
theorem answers (h : Matches B c c') {b : β} {b' : β'} (hb : (c.run.run {}).1 = .ok b)
    (hb' : (c'.run.run {}).1 = .ok b') : B b b' := by
  have hends := h {} {} rfl
  generalize c.run.run {} = x, c'.run.run {} = x' at hends hb hb'
  obtain ⟨r, l⟩ := x
  obtain ⟨r', l'⟩ := x'
  obtain rfl : r = .ok b := hb
  obtain rfl : r' = .ok b' := hb'
  exact hends.1

end Eval.Matches

/-- The states of two machines are related, and their accounts count the same. -/
def Joint (S : σ → σ' → Prop) (t : σ × Ledger α V) (t' : σ' × Ledger α V) : Prop :=
  S t.1 t'.1 ∧ SameCount t.2 t'.2

/-- Two machines in related states end with answers related by `B` and in related states again, or
with the same fault; then `C` is left of their states. -/
def Act.Matches (S C : σ → σ' → Prop) (B : β → β' → Prop) (c : Act σ α V β) (c' : Act σ' α V β') :
    Prop :=
  Alike (Joint S) c c' (fun b t b' t' => B b b' ∧ Joint S t t') (Joint C)

/-- Results that are known. -/
theorem Act.alike_of_ok {P E : σ × Ledger α V → σ' × Ledger α V → Prop}
    {A : β → σ × Ledger α V → β' → σ' × Ledger α V → Prop} {x : Except (Fault α) γ}
    {x' : Except (Fault α) γ'} {f : γ → Act σ α V β} {f' : γ' → Act σ' α V β'} {b : γ} {b' : γ'}
    (hx : x = .ok b) (hx' : x' = .ok b') (hf : Alike P (f b) (f' b') A E) :
    Alike P (ofExcept x >>= f) (ofExcept x' >>= f') A E := by
  rw [hx, hx']
  exact hf

namespace Act.Matches
variable {S C : σ → σ' → Prop} {B : β → β' → Prop} {D : γ → γ' → Prop} {c d : Act σ α V β}
  {c' d' : Act σ' α V β'}

theorem pure {b : β} {b' : β'} (h : B b b') :
    Matches S C B (pure b : Act σ α V β) (pure b' : Act σ' α V β') :=
  Alike.pure fun _ _ ht => ⟨h, ht⟩

/-- Whatever follows may rely on related answers in related states. -/
theorem before {c : Act σ α V γ} {c' : Act σ' α V γ'} {f : γ → Act σ α V β}
    {f' : γ' → Act σ' α V β'} {A : β → σ × Ledger α V → β' → σ' × Ledger α V → Prop}
    (hc : Matches S C D c c')
    (hf : ∀ b b', D b b' → Alike (Joint S) (f b) (f' b') A (Joint C)) :
    Alike (Joint S) (c >>= f) (c' >>= f') A (Joint C) :=
  Alike.bind hc fun b b' => .of_known (fun _ _ h => h) (hf b b')

theorem bind {c : Act σ α V γ} {c' : Act σ' α V γ'} {f : γ → Act σ α V β} {f' : γ' → Act σ' α V β'}
    (hc : Matches S C D c c') (hf : ∀ b b', D b b' → Matches S C B (f b) (f' b')) :
    Matches S C B (c >>= f) (c' >>= f') :=
  hc.before hf

theorem ite {φ φ' : Prop} [Decidable φ] [Decidable φ'] (hφ : φ' ↔ φ) (h : φ → Matches S C B c c')
    (hno : ¬ φ → Matches S C B d d') : Matches S C B (if φ then c else d) (if φ' then c' else d') :=
  Alike.ite hφ h hno

theorem of_ok {x : Except (Fault α) γ} {x' : Except (Fault α) γ'} {f : γ → Act σ α V β}
    {f' : γ' → Act σ' α V β'} {b : γ} {b' : γ'} (hx : x = .ok b) (hx' : x' = .ok b')
    (hf : Matches S C B (f b) (f' b')) :
    Matches S C B (ofExcept x >>= f) (ofExcept x' >>= f') :=
  alike_of_ok hx hx' hf

/-- Both machines look at their states. -/
theorem state {f : σ → Act σ α V β} {f' : σ' → Act σ' α V β'}
    (hf : ∀ st st', S st st' → Matches S C B (f st) (f' st')) :
    Matches S C B (Act.state >>= f) (Act.state >>= f') :=
  fun t t' ht => hf t.1 t'.1 ht.1 t t' ht

theorem modifyState {f : σ → σ} {f' : σ' → σ'} (h : ∀ st st', S st st' → S (f st) (f' st')) :
    Matches S C (fun _ _ => True) (modifyState f : Act σ α V Unit) (modifyState f') :=
  fun _ _ ht => ⟨trivial, h _ _ ht.1, ht.2⟩

theorem remark (r r' : Remark α) :
    Matches S C (fun _ _ => True) (remark r : Act σ α V Unit) (remark r') :=
  fun _ _ ht => ⟨trivial, ht⟩

section Faults
variable (hC : ∀ st st', S st st' → C st st')
include hC

theorem throw (e : Fault α) :
    Matches S C B (throw e : Act σ α V β) (throw e : Act σ' α V β') :=
  Alike.throw e fun _ _ ht => ⟨hC _ _ ht.1, ht.2⟩

/-- The same result on both sides, which may be a fault. -/
theorem of_eq {x x' : Except (Fault α) γ} {f : γ → Act σ α V β} {f' : γ → Act σ' α V β'}
    (hx : x' = x) (hf : ∀ b, x = .ok b → Matches S C B (f b) (f' b)) :
    Matches S C B (ofExcept x >>= f) (ofExcept x' >>= f') := by
  subst hx
  cases hb : x' with
  | ok b => exact hf b hb
  | error e => exact throw hC e

theorem ofEval {c : Eval α V β} {c' : Eval α V β'} (h : Eval.Matches B c c') :
    Matches S C B (ofEval c) (ofEval c') := by
  rintro ⟨st, l⟩ ⟨st', l'⟩ ⟨hst, hl⟩
  have hends := h l l' hl
  change Both _ _ ((c.run.run l).1, (st, (c.run.run l).2))
    ((c'.run.run l').1, (st', (c'.run.run l').2))
  generalize c.run.run l = x, c'.run.run l' = x' at hends ⊢
  rcases x with ⟨e | b, l⟩ <;> rcases x' with ⟨e' | b', l'⟩
  · exact ⟨hends.1, hC st st' hst, hends.2⟩
  · exact hends.elim
  · exact hends.elim
  · exact ⟨hends.1, hst, hends.2⟩

end Faults

end Act.Matches

end Evaluations

end Downhill
