import Downhill.Proofs.Descent.Conversation
import Downhill.Proofs.Problem.Responsive
import Downhill.Solver.Method

/-! What a run does to its account of evaluations. The searches of the library touch it only by
asking for values and gradients, and the strategies only by asking for Hessians and by remarks of
their own; so a property of the account that survives these is kept by every call. -/
namespace Downhill
variable {σ ρ α V M τ β γ ε : Type}

/-- A property of the state, which a fault with `E` may have broken. -/
def Preserved (E : ε → Prop) (P : τ → Prop) (r : Except ε β) (t : τ) : Prop :=
  P t ∨ ∃ e, r = .error e ∧ E e

theorem Preserved.of_ok {E : ε → Prop} {P : τ → Prop} {b : β} {t : τ}
    (h : Preserved E P (.ok b) t) : P t :=
  h.resolve_right fun ⟨_, he, _⟩ => by cases he

/-- Unless there is a fault with `E`, a property of the state is kept. -/
def Preserves (E : ε → Prop) (P : τ → Prop) (c : ExceptT ε (StateM τ) β) : Prop :=
  Ensures P c (Preserved E P)

/-- Whatever the result, a property of the state is kept. -/
abbrev Maintains (P : τ → Prop) (c : ExceptT ε (StateM τ) β) : Prop :=
  Preserves (fun _ => False) P c

theorem maintains_iff {P : τ → Prop} {c : ExceptT ε (StateM τ) β} :
    Maintains P c ↔ Ensures P c fun _ => P := by
  have hkept : ∀ r t, Preserved (β := β) (fun _ : ε => False) P r t ↔ P t := by
    simp [Preserved]
  exact ⟨fun h => .mono h (fun _ ht => ht) fun r t => (hkept r t).mp,
    fun h => .mono h (fun _ ht => ht) fun r t => (hkept r t).mpr⟩

namespace Preserves
variable {E : ε → Prop} {P : τ → Prop} {c : ExceptT ε (StateM τ) γ}
  {f : γ → ExceptT ε (StateM τ) β}

theorem pure (b : β) : Preserves E P (pure b : ExceptT ε (StateM τ) β) := Ensures.pure fun _ => .inl

theorem throw (e : ε) : Preserves E P (throw e : ExceptT ε (StateM τ) β) :=
  Ensures.throw fun _ => .inl

theorem bind (hc : Preserves E P c) (hf : ∀ b, Preserves E P (f b)) : Preserves E P (c >>= f) := by
  refine Ensures.bind hc (fun b t hb => hf b t hb.of_ok) fun e t he => he.imp_right ?_
  exact fun ⟨_, he, hE⟩ => ⟨e, rfl, Except.error.inj he ▸ hE⟩

theorem ite {φ : Prop} [Decidable φ] {c c' : ExceptT ε (StateM τ) β} (h : Preserves E P c)
    (h' : Preserves E P c') : Preserves E P (if φ then c else c') :=
  Ensures.ite (fun _ => h) fun _ => h'

theorem upTo {round : σ → ExceptT ε (StateM τ) (σ ⊕ β)} (h : ∀ s, Preserves E P (round s)) (cap : ℕ)
    (s : σ) : Preserves E P (upTo round cap s) := by
  induction cap generalizing s with
  | zero => exact pure _
  | succ cap ih =>
    rw [upTo_succ]
    refine bind (h s) fun r => ?_
    cases r with
    | inl s => exact ih s
    | inr b => exact pure _

theorem ofFnM {n : ℕ} {f : Fin n → ExceptT ε (StateM τ) β} (h : ∀ i, Preserves E P (f i)) :
    Preserves E P (Vector.ofFnM f) := by
  induction n with
  | zero =>
    rw [Vector.ofFnM_zero]
    exact pure _
  | succ n ih =>
    rw [Vector.ofFnM_succ]
    exact bind (ih fun i => h i.castSucc) fun _ => bind (h _) fun _ => pure _

theorem map (g : γ → β) (hc : Preserves E P c) : Preserves E P (g <$> c) := by
  rw [map_eq_pure_bind]
  exact hc.bind fun b => pure (g b)

theorem forIn {xs : List γ} {f : γ → β → ExceptT ε (StateM τ) (ForInStep β)}
    (h : ∀ x b, Preserves E P (f x b)) (b : β) : Preserves E P (forIn xs b f) := by
  induction xs generalizing b with
  | nil => exact pure b
  | cons x xs ih =>
    rw [List.forIn_cons]
    refine (h x b).bind fun r => ?_
    cases r with
    | done b => exact pure b
    | yield b => exact ih b

/-- A capped loop, and what follows it. -/
theorem rounds {round : σ → ExceptT ε (StateM τ) (σ ⊕ γ)}
    {next : σ ⊕ γ → ExceptT ε (StateM τ) β} (h : ∀ s, Preserves E P (round s)) (cap : ℕ) (s : σ)
    (hnext : ∀ r, Preserves E P (next r)) : Preserves E P (Downhill.upTo round cap s >>= next) :=
  bind (upTo h cap s) hnext

end Preserves

section Machines
variable {E : Fault α → Prop} {P : Ledger α V → Prop}

theorem Eval.preserves_ofExcept (e : Except (Fault α) β) :
    Preserves E P (ofExcept e : Eval α V β) := fun _ h => .inl h

namespace Act

/-- A property of the account, read as one of a machine. -/
abbrev Accounts (P : Ledger α V → Prop) (t : σ × Ledger α V) : Prop := P t.2

theorem preserves_ofEval {c : Eval α V β} (h : Preserves E P c) :
    Preserves E (Accounts P) (ofEval c : Act σ α V β) := fun t ht => h t.2 ht

theorem preserves_ofExcept (e : Except (Fault α) β) :
    Preserves E (Accounts P) (ofExcept e : Act σ α V β) := fun _ h => .inl h

theorem preserves_state : Preserves E (Accounts P) (state : Act σ α V σ) := fun _ h => .inl h

theorem preserves_modifyState (f : σ → σ) :
    Preserves E (Accounts P) (modifyState f : Act σ α V Unit) := fun _ h => .inl h

theorem preserves_within {part : σ → τ} {replace : τ → σ → σ} {c : Act τ α V β}
    (h : Preserves E (Accounts P) c) : Preserves E (Accounts P) (within part replace c) :=
  fun t ht => h (part t.1, t.2) ht

end Act

open Act

/-- The calls of the strategy keep a property of the account. -/
structure Strategy.Preserves (s : Strategy σ α V M) (o : Oracle α V M) (E : Fault α → Prop)
    (P : Ledger α V → Prop) : Prop where
  compute : ∀ x, Downhill.Preserves E (Accounts P) (s.compute o x)
  initialStep : ∀ g d, Downhill.Preserves E (Accounts P) (s.initialStep g d)
  update : ∀ u y g a d, Downhill.Preserves E (Accounts P) (s.update u y g a d)
  reset : Downhill.Preserves E (Accounts P) s.reset

def Search.Preserves (s : Search ρ α V M) (o : Oracle α V M) (E : Fault α → Prop)
    (P : Ledger α V → Prop) : Prop :=
  ∀ r asked, Downhill.Preserves E (Accounts P) (s.run o r asked)

end Machines

/-- The remarks that the strategies of the library make of themselves. -/
def Remark.isOwn : Remark α → Bool
  | shifted _ | notRegularized | restarted _ | skipped _ => true
  | _ => false

section Problems
variable [Scalar α] [Space α V] [Curved α V M] {P : Ledger α V → Prop}

namespace Difference
variable {f : V → Eval α V α} {g : V → Eval α V V} (eps : α) (x : V)

omit [Curved α V M] in
theorem maintains_sides {h : V → Eval α V β} (hh : ∀ v, Maintains P (h v)) (place : ℕ) :
    Maintains P (sides h eps x place) :=
  .bind (hh _) fun _ => .bind (hh _) fun _ => .pure _

omit [Curved α V M] in
theorem maintains_gradientAt (hf : ∀ v, Maintains P (f v)) :
    Maintains P (Difference.gradientAt f eps x) := by
  unfold Difference.gradientAt
  split_ifs
  · exact .throw _
  · refine .bind (.forIn (fun place _ => ?_) _) fun _ => .throw _
    exact .bind (.map _ (maintains_sides eps x hf place)) fun _ => .pure _
  · refine .bind (.ofFnM fun i => ?_) fun _ => .pure _
    exact .bind (hf _) fun _ => .bind (hf _) fun _ => .pure _

theorem maintains_hessianAt (hf : ∀ v, Maintains P (f v)) :
    Maintains P (Difference.hessianAt f eps x : Eval α V M) := by
  unfold Difference.hessianAt
  split_ifs
  · exact .bind (.map _ (hf x)) fun _ => .throw _
  · refine .bind (.map _ (hf x)) fun _ => .bind (.map _ ?_) fun _ => .throw _
    exact maintains_sides eps x hf 0
  · refine .bind (.bind (hf _) fun middle => .bind (.ofFnM fun i => .ofFnM fun j => ?_) fun _ =>
      .pure _) fun _ => .pure _
    refine .ite (.pure _) (.ite ?_ ?_)
    · exact .bind (hf _) fun _ => .bind (hf _) fun _ => .pure _
    · exact .bind (hf _) fun _ => .bind (hf _) fun _ => .bind (hf _) fun _ => .bind (hf _) fun _ =>
        .pure _

theorem maintains_hessianOfGradientAt (hg : ∀ v, Maintains P (g v)) :
    Maintains P (Difference.hessianOfGradientAt g eps x : Eval α V M) := by
  have hcolumn : ∀ y z : V, Maintains P (columnOf y z : Eval α V (Vector α (Space.size y))) := by
    intro y z
    unfold columnOf
    cases Space.column? y z with
    | none => exact .throw _
    | some c => exact .pure c
  have hat : ∀ v, Maintains P (do columnOf x (← g (Space.like x v)) :
      Eval α V (Vector α (Space.size x))) := fun v => .bind (hg _) fun _ => hcolumn _ _
  unfold Difference.hessianOfGradientAt
  split_ifs
  · exact .throw _
  · refine .bind (.forIn (fun place _ => ?_) _) fun _ => .throw _
    refine .bind (maintains_sides eps x hg place) fun r => .bind (.map _ (hcolumn _ _)) fun _ => ?_
    exact .pure _
  · refine .bind (.bind (.ofFnM fun i => ?_) fun _ => .pure _) fun _ => .pure _
    exact .bind (hat _) fun _ => .bind (hat _) fun _ => .pure _

end Difference

/-- The properties that evaluations keep, where their number does not matter. -/
structure Uncounted (P : Ledger α V → Prop) : Prop where
  value : Maintains P Eval.countValue
  gradient : Maintains P Eval.countGradient
  hessian : Maintains P Eval.countHessian

namespace Uncounted
variable (h : Uncounted P) (p : Problem α V M) {n : ℕ} (needHessian : Bool) (x : V)
include h

omit [Scalar α] in
theorem counted_value : Maintains P ((p.counted n).value x) :=
  .bind h.value fun _ => Eval.preserves_ofExcept _

omit [Scalar α] in
theorem counted_gradient : Maintains P ((p.counted n).gradient x) :=
  .bind h.gradient fun _ => .bind (Eval.preserves_ofExcept _) fun _ => .ite (.pure _) (.throw _)

omit [Scalar α] in
theorem counted_hessian : Maintains P ((p.counted n).hessian x) :=
  .bind h.hessian fun _ => .bind (Eval.preserves_ofExcept _) fun _ => .ite (.pure _) (.throw _)

theorem differentiable_value : Maintains P ((p.differentiable n needHessian).value x) := by
  unfold Problem.differentiable Oracle.differentiable
  split_ifs <;> exact h.counted_value (n := n) p x

theorem differentiable_gradient : Maintains P ((p.differentiable n needHessian).gradient x) := by
  unfold Problem.differentiable Oracle.differentiable
  split_ifs
  · exact h.counted_gradient p x
  · change Maintains P ((if p.hasGradient then (p.counted n).gradient
      else Difference.gradientAt (p.counted n).value Difference.defaultStep) x)
    split_ifs
    · exact h.counted_gradient p x
    · exact Difference.maintains_gradientAt _ x (h.counted_value p)

theorem differentiable_hessian : Maintains P ((p.differentiable n needHessian).hessian x) := by
  unfold Problem.differentiable Oracle.differentiable
  split_ifs
  · exact h.counted_hessian p x
  · change Maintains P ((if p.hasHessian then (p.counted n).hessian
      else if p.hasGradient then
        Difference.hessianOfGradientAt (p.counted n).gradient Difference.defaultStep
      else Difference.hessianAt (p.counted n).value Difference.defaultSecondStep) x)
    split_ifs
    · exact h.counted_hessian p x
    · exact Difference.maintains_hessianOfGradientAt _ x (h.counted_gradient p)
    · exact Difference.maintains_hessianAt _ x (h.counted_value p)

theorem work_value (hasked : Maintains P (Eval.request (.value x))) :
    Maintains P ((p.work n needHessian).value x) :=
  .bind hasked fun _ => h.differentiable_value p needHessian x

theorem work_gradient (hasked : Maintains P (Eval.request (.gradient x))) :
    Maintains P ((p.work n needHessian).gradient x) :=
  .bind hasked fun _ => h.differentiable_gradient p needHessian x

theorem work_hessian (hasked : Maintains P (Eval.request (.hessian x))) :
    Maintains P ((p.work n needHessian).hessian x) :=
  .bind hasked fun _ => h.differentiable_hessian p needHessian x

end Uncounted

end Problems

section Searches
variable [Scalar α] [Space α V] {o : Oracle α V M} {E : Fault α → Prop} {P : Ledger α V → Prop}
  (hvalue : ∀ x, Preserves E P (o.value x)) (hgradient : ∀ x, Preserves E P (o.gradient x))

omit [Space α V] in
include hvalue in
theorem preserves_trialValue (x : V) (alpha : α) : Preserves E P (trialValue o x alpha) :=
  .bind (hvalue x) fun _ => .bind (Eval.preserves_ofExcept _) fun _ => .pure _

omit [Scalar α] in
include hgradient in
theorem preserves_trialGradient (x : V) (alpha : α) : Preserves E P (trialGradient o x alpha) :=
  .bind (hgradient x) fun _ => .bind (Eval.preserves_ofExcept _) fun _ => .pure _

include hvalue hgradient

theorem Backtracking.preserves (s : Backtracking α) (r : Ray α V) (asked : Option α) :
    Preserves E P (s.search o r asked) := by
  refine .bind (Eval.preserves_ofExcept _) fun p => .rounds (fun t => ?_) _ _ fun r => ?_
  · refine .bind (preserves_trialValue hvalue _ _) fun f => .ite ?_ ?_
    · exact .bind (preserves_trialGradient hgradient _ _) fun _ => .pure _
    · exact .ite (.pure _) (.pure _)
  · cases r <;> exact .pure _

theorem CubicBacktracking.preserves (s : CubicBacktracking α) (r : Ray α V) (asked : Option α) :
    Preserves E P (s.search o r asked) := by
  refine .bind (Eval.preserves_ofExcept _) fun p => .rounds (fun t => ?_) _ _ fun r => ?_
  · refine .bind (preserves_trialValue hvalue _ _) fun f => .ite ?_ ?_
    · exact .bind (preserves_trialGradient hgradient _ _) fun _ => .pure _
    · exact .bind (Eval.preserves_ofExcept _) fun _ => .ite (.pure _) (.pure _)
  · cases r <;> exact .pure _

theorem Bisection.preserves (s : Bisection α) (r : Ray α V) (asked : Option α) :
    Preserves E P (s.search o r asked) := by
  refine .bind (Eval.preserves_ofExcept _) fun p => .rounds (fun t => ?_) _ _ fun r => ?_
  · refine .bind (preserves_trialValue hvalue _ _) fun f => .ite ?_ (.pure _)
    refine .bind (preserves_trialGradient hgradient _ _) fun g => .ite (.pure _) ?_
    exact .bind (Eval.preserves_ofExcept _) fun _ => .ite (.pure _) (.pure _)
  · cases r <;> exact .pure _

theorem MoreThuente.preserves (s : MoreThuente α) (r : Ray α V) (asked : Option α) :
    Preserves E P (s.search o r asked) := by
  refine .bind (Eval.preserves_ofExcept _) fun p => .rounds (fun t => ?_) _ _ fun r => ?_
  · refine .bind (hvalue _) fun f => .bind (hgradient _) fun g => ?_
    refine .bind (Eval.preserves_ofExcept _) fun _ => .bind (Eval.preserves_ofExcept _) fun _ => ?_
    exact .bind (Eval.preserves_ofExcept _) fun _ => .pure _
  · cases r <;> exact .pure _

/-- A search only asks for values and gradients. -/
theorem LineSearch.preserves (s : LineSearch α) : s.machine.Preserves o E P := by
  intro r asked
  refine Act.preserves_ofEval ?_
  cases s with
  | base => exact .throw _
  | backtracking s => exact s.preserves hvalue hgradient r asked
  | cubic s => exact s.preserves hvalue hgradient r asked
  | bisection s => exact s.preserves hvalue hgradient r asked
  | moreThuente s => exact s.preserves hvalue hgradient r asked

end Searches

section Strategies
variable [Scalar α] [Space α V] {o : Oracle α V M} {E : Fault α → Prop} {P : Ledger α V → Prop}
  (hremark : ∀ r : Remark α, r.isOwn = true → Preserves E P (Eval.remark r))
include hremark

open Act

theorem ConjugateGradient.preserves (s : ConjugateGradient) :
    (s.strategy : Strategy _ α V M).Preserves o E P where
  compute x := by
    have hrestart : ∀ reason, Downhill.Preserves E (Accounts P)
        (restart x.gradient reason : Act (State α V) α V V) := fun reason =>
      .bind (preserves_modifyState _) fun _ =>
        .bind (preserves_ofEval (hremark _ rfl)) fun _ => .pure _
    refine .bind preserves_state fun st => ?_
    cases st.memory with
    | none => exact .pure _
    | some last =>
      refine .ite (hrestart _) (.bind (preserves_ofExcept _) fun b => .ite ?_ (hrestart _))
      refine .bind (preserves_ofExcept _) fun d => .bind (preserves_ofExcept _) fun a => ?_
      exact .ite (.pure _) (hrestart _)
  initialStep _ _ :=
    .bind preserves_state fun _ => .bind (preserves_ofExcept _) fun _ => .pure _
  update _ _ _ _ _ :=
    .bind (preserves_ofExcept _) fun _ => .bind (preserves_modifyState _) fun _ =>
      .bind (preserves_ofExcept _) fun _ => preserves_modifyState _
  reset := preserves_modifyState _

theorem QuasiNewton.preserves (s : QuasiNewton α) :
    (s.strategy : Strategy _ α V M).Preserves o E P := by
  have hcurrent : ∀ missing, Downhill.Preserves E (Accounts P)
      (current missing : Act (State α s.memory.toNat V) α V _) := fun missing => by
    refine .bind preserves_state fun st => ?_
    cases st.history with
    | none => exact .throw _
    | some h => exact .pure _
  refine ⟨fun x => ?_, fun g d => ?_, fun u y g a d => ?_, ?_⟩
  · exact .bind (hcurrent _) fun h => preserves_ofExcept _
  · exact .bind (hcurrent _) fun h => .ite (.bind (preserves_ofExcept _) fun _ => .pure _) (.pure _)
  · refine .bind (hcurrent _) fun h => ?_
    rcases h.push u y with ⟨stored, h⟩
    refine .bind (preserves_modifyState _) fun _ => ?_
    rcases stored with f | _ | _
    · exact .throw _
    · exact .bind (preserves_modifyState _) fun _ => preserves_ofEval (hremark _ rfl)
    · exact .pure _
  · exact .bind (hcurrent _) fun h => preserves_modifyState _

variable [Curved α V M] (hhessian : ∀ x, Preserves E P (o.hessian x))
include hhessian

theorem Newton.preserves (s : Newton α) : (s.strategy : Strategy _ α V M).Preserves o E P where
  compute x := by
    refine .bind (preserves_ofEval (hhessian _)) fun m => .bind (preserves_ofExcept _) fun _ => ?_
    refine .bind (preserves_ofExcept _) fun m => ?_
    rcases Curved.factor m s.beta s.growth s.attempts with f | ⟨l, tau⟩
    · cases f with
      | notPositiveDefinite attempts =>
        exact .bind (preserves_modifyState _) fun _ =>
          .bind (preserves_ofEval (hremark _ rfl)) fun _ => .pure _
      | _ => exact .throw _
    · refine .bind (preserves_modifyState _) fun _ => .ite ?_ (preserves_ofExcept _)
      exact .bind (preserves_ofEval (hremark _ rfl)) fun _ => preserves_ofExcept _
  initialStep _ _ := .pure _
  update _ _ _ _ _ := .pure _
  reset := .pure _

/-- A strategy only asks for Hessians, and remarks on itself. -/
theorem Plan.preserves (plan : Plan α) :
    (plan.strategist : Strategist α V M).strategy.Preserves o E P := by
  cases plan with
  | newton s => exact s.preserves hremark hhessian
  | conjugateGradient s => exact s.preserves hremark
  | quasiNewton s => exact s.preserves hremark

end Strategies

namespace Descent
variable {d : Descent σ ρ α V M} {o : Oracle α V M} {E : Fault α → Prop} {P : Ledger α V → Prop}
  (hstrategy : d.strategy.Preserves o E P) (hsearch : d.search.Preserves o E P)
include hstrategy hsearch

theorem preserves_serve (q : Query α V) :
    Preserves E (Act.Accounts P) (d.serve o q) := by
  cases q with
  | compute x => exact Act.preserves_within (hstrategy.compute x)
  | reset => exact Act.preserves_within hstrategy.reset
  | initialStep g v => exact Act.preserves_within (hstrategy.initialStep g v)
  | search ray asked => exact Act.preserves_within (hsearch ray asked)
  | update u y g a v => exact Act.preserves_within (hstrategy.update u y g a v)

omit hstrategy hsearch in
theorem preserves_openAt [Scalar α] [Space α V] (hvalue : ∀ x, Preserves E P (o.value x))
    (hgradient : ∀ x, Preserves E P (o.gradient x)) (x : V) : Preserves E P (openAt o x) := by
  refine .ite (.bind (hvalue x) fun f => .bind (hgradient x) fun g => ?_) (.pure _)
  exact .ite (.pure _) (.pure _)

/-- The calls of a run keep a property of the account that every remark keeps. -/
theorem Transcript.preserves (hremark : ∀ r : Remark α, Maintains P (Eval.remark r))
    {start t : Flow σ ρ α V × Ledger α V} {events : List (Event α V)}
    (h : d.Transcript o start events t) (hstart : P start.2) :
    P t.2 ∨ ∃ e ∈ events, ∃ f, e.answer = .error f ∧ E f := by
  induction h with
  | begin => exact .inl hstart
  | remark h r ih => exact ih.imp_left (maintains_iff.mp (hremark r) _)
  | accept h y ih => exact ih
  | @call events f l h e t ht ih =>
    obtain hl | ⟨e', he', hfault⟩ := ih
    · have hserve := preserves_serve hstrategy hsearch e.query
        ({ f with calls := f.calls.push e.call }, l) hl
      rw [show (d.serve o e.query).run.run ({ f with calls := f.calls.push e.call }, l) =
        (e.answer, t) from ht] at hserve
      exact hserve.imp_right fun ⟨f, hf⟩ => ⟨e, List.mem_append_right _ List.mem_cons_self, f, hf⟩
    · exact .inr ⟨e', List.mem_append_left _ he', hfault⟩

end Descent

end Downhill
