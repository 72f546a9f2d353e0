import Downhill.Proofs.Descent.Course
import Downhill.Proofs.Direction.Reliable
import Downhill.Proofs.LineSearch.Faults

/-! An iteration is not broken off at a gradient other than zero. The strategy is asked only along
directions that descend, the search begins only there, and its numerical faults end the run with a
status. Where the gradient is zero the one fault that is left ends it. -/
namespace Downhill
variable {K V M : Type} {σ ρ α β γ : Type}

open Exact

/-- The state of the strategy has `I`, and these are the iterates that were accepted. -/
def Keeps (I : σ → Prop) (trace : Array (Iterate α V)) (t : Flow σ ρ α V × Ledger α V) : Prop :=
  I t.1.strategy ∧ t.1.trace = trace

section Parts
variable {I : σ → Prop} {trace : Array (Iterate α V)} {E : σ × Ledger α V → Prop}
  {R : β → σ × Ledger α V → Prop} {c : Act σ α V β}

theorem surely_note (c : Call α V) : Ensures (Keeps I trace)
    (Descent.note c : Act (Flow σ ρ α V) α V Unit) (Surely fun _ => Keeps I trace) :=
  fun _ ht => ht

theorem surely_remark (r : Remark α) : Ensures (Keeps I trace)
    (Act.remark r : Act (Flow σ ρ α V) α V Unit) (Surely fun _ => Keeps I trace) :=
  fun _ ht => ht

theorem surely_ask (h : Ensures (fun t => I t.1) c (Surely R)) :
    Ensures (Keeps I trace) (Descent.ask c : Act (Flow σ ρ α V) α V β)
      (Surely fun b t => R b (t.1.strategy, t.2) ∧ t.1.trace = trace) := by
  intro t ht
  have hc := h (t.1.strategy, t.2) ht.1
  rcases hr : (c.run.run (t.1.strategy, t.2)).1 with f | b <;> rw [hr] at hc
  · exact hc.elim
  · have hrun : ((Descent.ask c : Act (Flow σ ρ α V) α V β).run.run t).1 = .ok b := hr
    rw [hrun]
    exact ⟨hc, ht.2⟩

theorem mildly_ask (h : Ensures (fun t => I t.1) c (Mildly E R)) :
    Ensures (Keeps I trace) (Descent.ask c : Act (Flow σ ρ α V) α V β)
      (Mildly (fun t => E (t.1.strategy, t.2) ∧ t.1.trace = trace) fun b t =>
        R b (t.1.strategy, t.2) ∧ t.1.trace = trace) := by
  intro t ht
  have hc := h (t.1.strategy, t.2) ht.1
  have hrun : ((Descent.ask c : Act (Flow σ ρ α V) α V β).run.run t).1 =
      (c.run.run (t.1.strategy, t.2)).1 := rfl
  rw [hrun]
  rcases hr : (c.run.run (t.1.strategy, t.2)).1 with f | b <;> rw [hr] at hc
  · exact ⟨hc.1, hc.2, ht.2⟩
  · exact ⟨hc, ht.2⟩

/-- A search leaves the strategy alone. -/
theorem mildly_look {c : Eval α V β} (h : Mild c fun _ => True) :
    Ensures (Keeps I trace) (Descent.look (Act.ofEval c) : Act (Flow σ ρ α V) α V β)
      (Mildly (Keeps I trace) fun _ => Keeps I trace) := by
  intro t ht
  have hc := h t.2 trivial
  have hrun : ((Descent.look (Act.ofEval c) : Act (Flow σ ρ α V) α V β).run.run t).1 =
      (c.run.run t.2).1 := rfl
  rw [hrun]
  rcases hr : (c.run.run t.2).1 with f | b <;> rw [hr] at hc
  · exact ⟨hc.1, ht⟩
  · exact ht

/-- A guarded computation with numerical faults has no faults. -/
theorem surely_guarded {P E : σ × Ledger α V → Prop} (h : Ensures P c (Mildly E R)) :
    Ensures P (guarded c) (Surely fun r t => (∀ b, r = .ok b → R b t) ∧
      ∀ f, r = .error f → E t) := by
  intro t ht
  have hc : Mildly E R (c.perform t.1 t.2).1 (c.perform t.1 t.2).2 := h t ht
  have hrun : (guarded c).run.run t = _ := perform_guarded c t.1 t.2
  rw [hrun]
  rcases hr : c.perform t.1 t.2 with ⟨f | b, t'⟩ <;> rw [hr] at hc
  · cases f <;> try cases hc.1
    exact ⟨fun _ hb => (by cases hb), fun _ _ => hc.2⟩
  · exact ⟨fun _ hb => (by cases hb; exact hc), fun _ hf => (by cases hf)⟩

theorem surely_guarded_ok {P : σ × Ledger α V → Prop} (h : Ensures P c (Surely R)) :
    Ensures P (guarded c) (Surely fun r t => ∃ b, r = .ok b ∧ R b t) := by
  refine Surely.imp (surely_guarded (Surely.mildly (E := fun _ => False) h)) fun r t hr => ?_
  cases r with
  | ok b => exact ⟨b, rfl, hr.1 b rfl⟩
  | error f => exact (hr.2 f rfl).elim

/-- The fault `f` is raised, and no iterate was accepted since. -/
def Raises (f : Fault α) (trace : Array (Iterate α V)) :
    Except (Fault α) β → Flow σ ρ α V × Ledger α V → Prop
  | .ok _, _ => False
  | .error e, t => e = f ∧ t.1.trace = trace

section Raises
variable {f : Fault α} {P : Flow σ ρ α V × Ledger α V → Prop} {c : Act (Flow σ ρ α V) α V β}

theorem Raises.bind {next : β → Act (Flow σ ρ α V) α V γ} (hc : Ensures P c (Raises f trace)) :
    Ensures P (c >>= next) (Raises f trace) :=
  .bind hc (fun _ _ h => h.elim) fun _ _ h => h

theorem Raises.guarded (hf : f.isNumerical = false) (hc : Ensures P c (Raises f trace)) :
    Ensures P (guarded c) (Raises f trace) := by
  intro t ht
  have hraised : Raises f trace (c.perform t.1 t.2).1 (c.perform t.1 t.2).2 := hc t ht
  have hrun : (Downhill.guarded c).run.run t = _ := perform_guarded c t.1 t.2
  rw [hrun]
  rcases hr : c.perform t.1 t.2 with ⟨e | b, t'⟩ <;> rw [hr] at hraised
  · obtain ⟨rfl, htrace⟩ := hraised
    cases e
    case numerical => cases hf
    all_goals exact ⟨rfl, htrace⟩
  · exact hraised.elim

end Raises

end Parts

namespace Descent
variable [ExactField K] {n : ℕ} {I J : σ → Prop} {f : Fault (Exact K)} {first : Exact K}
  {d : Descent σ Unit (Exact K) (Vector (Exact K) n) (Matrix (Exact K) n)}
  {o : Oracle (Exact K) (Vector (Exact K) n) (Matrix (Exact K) n)} {s : LineSearch (Exact K)}

/-- What a run needs so that it is not broken off: a problem that answers, a strategy that can be
relied on, a search with a proper first step, and an end test that has an answer. -/
structure Sturdy (d : Descent σ Unit (Exact K) (Vector (Exact K) n) (Matrix (Exact K) n))
    (o : Oracle (Exact K) (Vector (Exact K) n) (Matrix (Exact K) n)) (I : σ → Prop)
    (s : LineSearch (Exact K)) (first : Exact K) : Prop where
  responds : o.Responds
  reliable : d.strategy.Reliable o I
  search : d.search = s.machine
  firstStep : s.firstStep? = some first
  first_pos : 0 < first
  first_finite : Scalar.isFinite first = true
  decides : ∀ x y, ∃ done, d.verdict x y = .ok done

/-- A run goes on from a finite iterate. -/
def Goes (I : σ → Prop) (next : Progress (Exact K) (Vector (Exact K) n))
    (τ : Flow σ Unit (Exact K) (Vector (Exact K) n) × Ledger (Exact K) (Vector (Exact K) n)) :
    Prop :=
  I τ.1.strategy ∧ Space.finite next.current.point = true ∧ ∃ g, next.current.gradient = lift g

namespace Sturdy
variable (hd : Sturdy d o I s first) {g v : Fin n → K}
  {trace : Array (Iterate (Exact K) (Vector (Exact K) n))}
include hd

theorem surely_reset : Ensures (Keeps I trace) d.reset (Surely fun _ => Keeps I trace) :=
  Surely.bind (surely_note _) fun _ => surely_ask hd.reliable.reset

/-- The direction of an iteration descends. -/
theorem surely_propose (t : Progress (Exact K) (Vector (Exact K) n)) (hg : g ≠ 0)
    (ht : t.current.gradient = lift g) :
    Ensures (Keeps I trace) (d.propose o t) (Surely fun r τ => Keeps I trace τ ∧
      ∀ direction, r = .ok direction → ∃ v, direction = lift v ∧ g ⬝ᵥ v < 0) := by
  have hcompute : Ensures (Keeps I trace) _ _ :=
    surely_guarded (mildly_ask (ρ := Unit) (hd.reliable.compute t.current g ht))
  refine Surely.bind (surely_note _) fun _ => Surely.bind hcompute fun r => ?_
  rcases r with f | direction
  · exact .pure fun τ hτ => ⟨hτ.2 f rfl, fun _ h => by cases h⟩
  refine .mono (P := Keeps I trace) ?_ (fun τ hτ => hτ.1 direction rfl) fun _ _ h => h
  refine .ite (fun hfin => ?_) fun _ => .pure fun τ hτ => ⟨hτ, fun _ h => by cases h⟩
  obtain ⟨v, rfl⟩ := exists_lift hfin
  refine Act.ensures_ofExcept_bind (Space.dot?_vector _ _) ?_
  rw [ht, dot_lift]
  refine .ite (fun hneg => .pure fun τ hτ => ⟨hτ, ?_⟩) fun _ => ?_
  · rintro _ ⟨⟩
    exact ⟨v, rfl, hneg⟩
  · refine Surely.bind (surely_remark _) fun _ => Surely.bind hd.surely_reset fun _ => ?_
    refine .pure fun τ hτ => ⟨hτ, ?_⟩
    rintro _ ⟨⟩
    exact ⟨-g, neg_lift g, by simpa using dotProduct_self_pos hg⟩

/-- A search along a direction that descends. -/
theorem mildly_searchAlong {x : Iterate (Exact K) (Vector (Exact K) n)} (hg : g ≠ 0)
    (hx : x.gradient = lift g) (hv : g ⬝ᵥ v < 0) :
    Ensures (Keeps I trace) (d.searchAlong o x (lift v))
      (Mildly (Keeps I trace) fun _ => Keeps I trace) := by
  have hasked : Ensures (Keeps I trace) _ _ :=
    surely_ask (ρ := Unit) (hd.reliable.initialStep g v hg hv)
  rw [← hx] at hasked
  refine Surely.bind (surely_note _) fun _ => Surely.bind hasked fun asked => ?_
  have hsearch : (∀ a, asked = some a → 0 < a ∧ Scalar.isFinite a = true) →
      Mild (s.search o ⟨x, lift v⟩ asked) fun _ => True := by
    intro hpos
    have hslope : Space.inner x.gradient (lift v) < 0 := by
      rw [hx, Space.inner_vector, dot_lift]
      exact hv
    refine s.mild_search hd.responds hd.firstStep hslope ?_ ?_
    · cases asked with
      | none => exact hd.first_pos
      | some a => exact (hpos a rfl).1
    · cases asked with
      | none => exact hd.first_finite
      | some a => exact (hpos a rfl).2
  refine .of_known (R := Keeps I trace) (fun τ hτ => ⟨hτ.1.2, hτ.1.1, hτ.2⟩) fun hpos => ?_
  rw [hd.search]
  exact Surely.bind (surely_note _) fun _ => mildly_look (hsearch hpos)

/-- The searches of an iteration; the last one went along a vector of the field. -/
theorem mildly_explore (t : Progress (Exact K) (Vector (Exact K) n)) (hg : g ≠ 0)
    (ht : t.current.gradient = lift g) (hv : g ⬝ᵥ v < 0) :
    Ensures (Keeps I trace) (d.explore o t (lift v))
      (Mildly (Keeps I trace) fun r τ => (∃ v, r.1 = lift v) ∧ Keeps I trace τ) := by
  refine Mildly.bind (hd.mildly_searchAlong hg ht hv) fun step => ?_
  refine .ite (fun _ => .pure fun τ hτ => ⟨⟨v, rfl⟩, hτ⟩) fun _ => ?_
  refine Surely.bind (surely_remark _) fun _ => Surely.bind hd.surely_reset fun _ => ?_
  have hneg : -t.current.gradient = lift (-g) := by rw [ht, neg_lift]
  have hself : g ⬝ᵥ -g < 0 := by simpa using dotProduct_self_pos hg
  rw [hneg]
  refine Mildly.bind (hd.mildly_searchAlong hg ht hself) fun step => ?_
  exact .pure fun τ hτ => ⟨⟨-g, rfl⟩, hτ⟩

theorem surely_take (t : Progress (Exact K) (Vector (Exact K) n)) (hg : g ≠ 0)
    (ht : t.current.gradient = lift g) (step : Step (Exact K) (Vector (Exact K) n)) :
    Ensures (Keeps I trace) (d.take t (lift v) step) (Surely fun r τ =>
      ∀ next, r = .inl next → Goes I next τ) := by
  refine .ite (fun hfin => ?_) fun _ => .pure fun τ _ next h => by cases h
  simp only [finiteStep, Bool.and_eq_true] at hfin
  obtain ⟨g', hg'⟩ := exists_lift hfin.2
  have hupdate : Ensures (Keeps I trace) _ _ := surely_ask (ρ := Unit) (hd.reliable.update
    (step.reached.point - t.current.point) g g' v step.alpha hg)
  rw [← hg', ← ht] at hupdate
  refine Act.ensures_ofExcept_bind (Space.difference?_vector _ _) ?_
  refine Act.ensures_ofExcept_bind (Space.difference?_vector _ _) ?_
  refine Surely.bind (surely_note _) fun _ => Surely.bind hupdate fun _ => ?_
  refine Surely.bind (surely_remark _) fun _ => ?_
  refine Surely.bind (R := fun _ => Keeps I (trace.push step.reached))
    (fun _ hτ => ⟨hτ.1, congrArg (Array.push · step.reached) hτ.2⟩) fun _ => ?_
  obtain ⟨done, hdone⟩ := hd.decides t.current step.reached
  refine Act.ensures_ofExcept_bind hdone ?_
  cases done with
  | true => exact .pure fun τ _ next h => by cases h
  | false =>
    refine .pure fun τ hτ next h => ?_
    cases h
    exact ⟨hτ.1, hfin.1.1, g', hg'⟩

/-- An iteration at a gradient other than zero raises no fault. -/
theorem surely_iterate (t : Progress (Exact K) (Vector (Exact K) n)) (hg : g ≠ 0)
    (ht : t.current.gradient = lift g) :
    Ensures (Keeps I trace) (d.iterate o t) (Surely fun r τ =>
      ∀ next, r = .inl next → Goes I next τ) := by
  refine Surely.bind (hd.surely_propose t hg ht) fun r => ?_
  rcases r with message | direction
  · exact .pure fun τ _ next h => by cases h
  refine .of_known (fun τ hτ => ⟨hτ.2 direction rfl, hτ.1⟩) fun ⟨v, hdirection, hv⟩ => ?_
  subst hdirection
  refine Surely.bind (surely_guarded (hd.mildly_explore t hg ht hv)) fun r => ?_
  rcases r with f | ⟨direction, step⟩
  · exact .pure fun τ _ next h => by cases h
  refine .of_known (fun τ hτ => hτ.1 _ rfl) fun ⟨v, hdirection⟩ => ?_
  subst hdirection
  exact .ite (fun _ => hd.surely_take t hg ht step) fun _ => .pure fun τ _ next h => by cases h

section Stalling
variable (hstalls : d.strategy.Stalls o I J f)
include hstalls

omit hd in
/-- At a gradient of zero no direction descends, and zero takes its place. -/
theorem surely_propose_zero (t : Progress (Exact K) (Vector (Exact K) n))
    (hfin : Space.finite t.current.point = true) (ht : t.current.gradient = lift 0) :
    Ensures (Keeps I trace) (d.propose o t) (Surely fun r τ =>
      r = .ok (lift 0) ∧ Keeps J trace τ) := by
  have hcompute : Ensures (Keeps I trace) _ _ :=
    surely_guarded_ok (surely_ask (ρ := Unit) (hstalls.compute t.current hfin ht))
  refine Surely.bind (surely_note _) fun _ => Surely.bind hcompute fun r => ?_
  refine .of_known (φ := ∃ v, r = .ok (lift v)) (R := Keeps I trace) ?_ fun hdirection => ?_
  · rintro τ ⟨_, rfl, ⟨hI, v, rfl⟩, htrace⟩
    exact ⟨⟨v, rfl⟩, hI, htrace⟩
  · obtain ⟨v, rfl⟩ := hdirection
    refine .ite (fun _ => ?_) fun hno => absurd (allFinite_lift v) hno
    refine Act.ensures_ofExcept_bind (Space.dot?_vector _ _) ?_
    rw [ht, dot_lift, zero_dotProduct]
    refine .ite (fun hneg => absurd hneg (Exact.lt_irrefl 0)) fun _ => ?_
    refine Surely.bind (surely_remark _) fun _ => ?_
    refine Surely.bind (Surely.bind (surely_note _) fun _ => surely_ask hstalls.reset) fun _ => ?_
    exact .pure fun τ hτ => ⟨by rw [neg_lift, neg_zero], hτ⟩

/-- The first step along a direction of zero is refused by the strategy or by the search. -/
theorem ensures_searchAlong_zero {x : Iterate (Exact K) (Vector (Exact K) n)}
    (hx : x.gradient = lift 0) :
    Ensures (Keeps J trace) (d.searchAlong o x (lift 0)) (Raises f trace) := by
  have hasked : Ensures (Keeps J trace)
      (ask (d.strategy.initialStep x.gradient (lift 0)) : Act (Flow σ Unit _ _) _ _ _)
      fun r τ => (r = .error f ∨ r = .ok none ∧ f = .notDescent 0) ∧ τ.1.trace = trace := by
    rw [hx]
    exact fun τ hτ => ⟨hstalls.initialStep (τ.1.strategy, τ.2) hτ.1, hτ.2⟩
  refine Surely.bind (surely_note _) fun _ => .bind hasked (fun asked => ?_) fun e τ hτ => ?_
  · rintro τ ⟨hno | ⟨hnone, rfl⟩, htrace⟩
    · cases hno
    cases hnone
    have hslope : Space.inner x.gradient (lift (0 : Fin n → K)) = 0 := by
      rw [hx, Space.inner_vector, dot_lift, dotProduct_zero]
      rfl
    have hprepare : (⟨x, lift 0⟩ : Ray _ _).prepare first none = .error (.notDescent 0) := by
      rw [← hslope]
      refine Ray.prepare_of_not_descent ?_
      rw [hslope]
      exact Exact.lt_irrefl 0
    have hsearch : ((s.search o ⟨x, lift 0⟩ none).run.run τ.2).1 = .error (.notDescent 0) :=
      congrArg Prod.fst (LineSearch.perform_search_of_error hd.firstStep hprepare τ.2)
    have hlook : ((note (.search (lift 0)) >>= fun _ =>
        look (d.search.run o ⟨x, lift 0⟩ none) : Act (Flow σ Unit _ _) _ _ _).run.run τ).1 =
        .error (.notDescent 0) := by
      rw [hd.search]
      exact hsearch
    rw [hlook]
    exact ⟨rfl, htrace⟩
  · obtain ⟨he | ⟨hno, -⟩, htrace⟩ := hτ
    · exact ⟨Except.error.inj he, htrace⟩
    · cases hno

/-- An iteration at a gradient of zero raises the fault, and accepts nothing. -/
theorem ensures_iterate_zero (t : Progress (Exact K) (Vector (Exact K) n))
    (hfin : Space.finite t.current.point = true) (ht : t.current.gradient = lift 0) :
    Ensures (Keeps I trace) (d.iterate o t) (Raises f trace) := by
  refine Surely.bind (surely_propose_zero hstalls t hfin ht) fun r => .of_fact fun hr => ?_
  subst hr
  exact Raises.bind (Raises.guarded hstalls.raised
    (Raises.bind (hd.ensures_searchAlong_zero hstalls ht)))

end Stalling

end Sturdy

end Descent

end Downhill
