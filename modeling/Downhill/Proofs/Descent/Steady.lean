import Downhill.Descent.Run
import Downhill.Proofs.Ensures

/-! How far a run has come: the steps that it reported to its strategy and the iterates that it
accepted. Most calls leave both as they are, whatever the strategy and the search do with their own
states; the rules below carry that through a run. -/
namespace Downhill
variable {σ ρ α V M β : Type}

/-- The length and the direction of a step that is reported to the strategy. -/
def Call.taken? : Call α V → Option (α × V)
  | .update _ _ _ alpha direction => some (alpha, direction)
  | _ => none

namespace Flow

/-- The lengths and the directions of the steps that were reported to the strategy, in order. -/
def taken (f : Flow σ ρ α V) : List (α × V) := f.calls.toList.filterMap Call.taken?

/-- The steps and the iterates of a run. -/
def progress (f : Flow σ ρ α V) : List (α × V) × List (Iterate α V) := (f.taken, f.trace.toList)

end Flow

/-- The run has come this far. -/
def At (v : List (α × V) × List (Iterate α V)) (t : Flow σ ρ α V × Ledger α V) : Prop :=
  t.1.progress = v

/-- The run has come no further, and the answer, if there is one, has `Q`. -/
def Steady (v : List (α × V) × List (Iterate α V)) (Q : β → Prop) :
    Except (Fault α) β → Flow σ ρ α V × Ledger α V → Prop :=
  fun r t => At v t ∧ ∀ b, r = .ok b → Q b

/-- What holds of a computation once its numerical faults are answers. -/
def Caught {τ : Type} (Q : Except (Fault α) β → τ → Prop) :
    Except (Fault α) (Except (NumericalFault α) β) → τ → Prop
  | .ok (.ok b), t => Q (.ok b) t
  | .ok (.error f), t => Q (.error (.numerical f)) t
  | .error f, t => Q (.error f) t

theorem ensures_guarded {P : σ × Ledger α V → Prop} {c : Act σ α V β}
    {Q : Except (Fault α) β → σ × Ledger α V → Prop} (h : Ensures P c Q) :
    Ensures P (guarded c) (Caught Q) := by
  intro t ht
  have hrun : (guarded c).run.run t = _ := perform_guarded c t.1 t.2
  have hc : Q (c.perform t.1 t.2).1 (c.perform t.1 t.2).2 := h t ht
  rw [hrun]
  rcases hr : c.perform t.1 t.2 with ⟨r, t'⟩
  rw [hr] at hc
  cases r with
  | ok b => exact hc
  | error f => cases f <;> exact hc

section Steady
variable {v : List (α × V) × List (Iterate α V)} {Q : β → Prop}

theorem Steady.pure {b : β} (h : Q b) :
    Ensures (At v) (pure b : Act (Flow σ ρ α V) α V β) (Steady v Q) :=
  .pure fun _ ht => ⟨ht, fun _ hb => by cases hb; exact h⟩

/-- A part that leaves the run where it is comes before another one. -/
theorem Steady.bind {γ : Type} {c : Act (Flow σ ρ α V) α V γ} {f : γ → Act (Flow σ ρ α V) α V β}
    {Q : γ → Prop} {R : Except (Fault α) β → Flow σ ρ α V × Ledger α V → Prop}
    (hc : Ensures (At v) c (Steady v Q)) (hf : ∀ b, Q b → Ensures (At v) (f b) R)
    (he : ∀ e t, At v t → R (.error e) t) : Ensures (At v) (c >>= f) R :=
  .bind hc (fun b t ht => hf b (ht.2 b rfl) t ht.1) fun e t ht => he e t ht.1

/-- The same where both parts leave the run where it is. -/
theorem Steady.seq {γ : Type} {c : Act (Flow σ ρ α V) α V γ} {f : γ → Act (Flow σ ρ α V) α V β}
    {R : γ → Prop} (hc : Ensures (At v) c (Steady v R))
    (hf : ∀ b, R b → Ensures (At v) (f b) (Steady v Q)) : Ensures (At v) (c >>= f) (Steady v Q) :=
  Steady.bind hc hf fun _ _ ht => ⟨ht, nofun⟩

theorem Steady.guarded {c : Act (Flow σ ρ α V) α V β} (h : Ensures (At v) c (Steady v Q)) :
    Ensures (At v) (guarded c) (Steady v fun r => ∀ b, r = .ok b → Q b) := by
  refine .mono (ensures_guarded h) (fun _ ht => ht) fun r t ht => ?_
  rcases r with f | f | b
  · exact ⟨ht.1, nofun⟩
  · exact ⟨ht.1, by rintro _ ⟨⟩; exact nofun⟩
  · exact ⟨ht.1, by rintro _ ⟨⟩ _ ⟨⟩; exact ht.2 b rfl⟩

end Steady

namespace Descent
variable {v : List (α × V) × List (Iterate α V)}

theorem steady_ofExcept (e : Except (Fault α) β) :
    Ensures (At v) (Act.ofExcept e : Act (Flow σ ρ α V) α V β) (Steady v fun b => e = .ok b) :=
  fun _ ht => ⟨ht, fun _ hb => hb⟩

theorem steady_remark (r : Remark α) :
    Ensures (At v) (Act.remark r : Act (Flow σ ρ α V) α V Unit) (Steady v fun _ => True) :=
  fun _ ht => ⟨ht, fun _ _ => trivial⟩

theorem steady_ask (c : Act σ α V β) :
    Ensures (At v) (ask c : Act (Flow σ ρ α V) α V β) (Steady v fun _ => True) :=
  fun _ ht => ⟨ht, fun _ _ => trivial⟩

/-- A call to the search answers as the search does. -/
theorem steady_look {c : Eval α V β} {Q : β → Prop}
    (h : Ensures (fun _ => True) c (Answered fun b _ => Q b)) :
    Ensures (At v) (look (Act.ofEval c) : Act (Flow σ ρ α V) α V β) (Steady v Q) := by
  intro t ht
  refine ⟨ht, fun b hb => ?_⟩
  have hc := h t.2 trivial
  have hb' : (c.run.run t.2).1 = .ok b := hb
  rw [hb'] at hc
  exact hc

theorem taken_note (c : Call α V) (f : Flow σ ρ α V) :
    Flow.taken { f with calls := f.calls.push c } = f.taken ++ c.taken?.toList := by
  simp only [Flow.taken, Array.toList_push, List.filterMap_append]
  cases h : c.taken? <;> simp [h]

theorem ensures_note (c : Call α V) :
    Ensures (At v) (note c : Act (Flow σ ρ α V) α V Unit) fun _ t =>
      At (v.1 ++ c.taken?.toList, v.2) t := by
  rintro t rfl
  exact congrArg (·, t.1.trace.toList) (taken_note c t.1)

theorem steady_note {c : Call α V} (hc : c.taken? = none) :
    Ensures (At v) (note c : Act (Flow σ ρ α V) α V Unit) (Steady v fun _ => True) := by
  refine .mono (ensures_note c) (fun _ ht => ht) fun r t ht => ⟨?_, fun _ _ => trivial⟩
  rwa [hc, Option.toList_none, List.append_nil] at ht

theorem ensures_push (y : Iterate α V) :
    Ensures (At v) (Act.modifyState fun f => { f with trace := f.trace.push y } :
      Act (Flow σ ρ α V) α V Unit) fun _ t => At (v.1, v.2 ++ [y]) t := by
  rintro t rfl
  exact congrArg (t.1.taken, ·) Array.toList_push

section Directions
variable [Scalar α] [Space α V] [Curved α V M] (d : Descent σ ρ α V M)

omit [Scalar α] [Space α V] [Curved α V M] in
theorem steady_reset : Ensures (At v) d.reset (Steady v fun _ => True) :=
  Steady.seq (steady_note rfl) fun _ _ => steady_ask _

omit [Curved α V M] in
theorem steady_propose (o : Oracle α V M) (t : Progress α V) :
    Ensures (At v) (d.propose o t) (Steady v fun _ => True) := by
  refine Steady.seq (steady_note rfl) fun _ _ => ?_
  refine Steady.seq (Steady.guarded (steady_ask _)) fun r _ => ?_
  cases r with
  | error f => exact Steady.pure trivial
  | ok direction =>
    refine .ite (fun _ => ?_) fun _ => Steady.pure trivial
    refine Steady.seq (steady_ofExcept _) fun slope _ => ?_
    refine .ite (fun _ => Steady.pure trivial) fun _ => ?_
    refine Steady.seq (steady_remark _) fun _ _ => ?_
    exact Steady.seq d.steady_reset fun _ _ => Steady.pure trivial

end Directions

end Descent

end Downhill
