import Downhill.Proofs.Linear.Halves
import Downhill.Proofs.LineSearch.Contract
import Downhill.Proofs.Lockstep

/-! Without the curvature condition the search by doubling and halving is backtracking by one half.
Its first trial with sufficient decrease is taken, so the lower end of the bracket stays at zero and
every further trial is the middle between zero and the last one. The other tests of its loop change
nothing, provided that the first step is not beyond twice the longest one. This holds in every
arithmetic that obeys the laws of halving, among them exact arithmetic and that of doubles. -/
namespace Downhill
variable {α V M : Type} [Scalar α] [Space α V]

/-- The steps are the same except for the message of a failure. -/
structure Step.Twin (step step' : Step α V) : Prop where
  alpha : step'.alpha = step.alpha
  reached : step'.reached = step.reached
  values : step'.values = step.values
  gradients : step'.gradients = step.gradients
  success : step'.success = step.success
  message : step.success = true → step'.message = step.message

/-- Both searches raise the same fault, or both end with a step that is the same except for the
message of a failure. -/
def SameOutcome : Except (Fault α) (Step α V) → Except (Fault α) (Step α V) → Prop
  | .ok step, .ok step' => step.Twin step'
  | .error e, .error e' => e' = e
  | _, _ => False

omit [Space α V] in
theorem Step.Twin.failed (r : Ray α V) (values gradients : ℕ) (message message' : SearchMessage α) :
    (Step.failed r values gradients message).Twin (.failed r values gradients message') :=
  ⟨rfl, rfl, rfl, rfl, rfl, nofun⟩

theorem Ray.prepare_congr (r : Ray α V) {default default' : α} {asked : Option α}
    (h : asked.getD default' = asked.getD default) :
    r.prepare default' asked = r.prepare default asked := by
  simp only [prepare, startingStep, h]

/-- A search starts from the step that it is asked for, or else from its default. -/
theorem Ray.step_of_prepare {r : Ray α V} {default slope alpha : α} {asked : Option α}
    (h : r.prepare default asked = .ok (slope, alpha)) : alpha = asked.getD default := by
  obtain ⟨m, -, h⟩ := bind_eq_ok_iff.mp h
  obtain ⟨a, ha, h⟩ := bind_eq_ok_iff.mp h
  obtain ⟨-, -, h⟩ := bind_eq_ok_iff.mp h
  cases h
  simp only [startingStep] at ha
  split_ifs at ha
  exact (Except.ok.inj ha).symm

namespace Bisection
variable {s : Bisection α} {b : Backtracking α} {t : State α V} {t' : Backtracking.State α}
  {r : Ray α V}

/-- The states of the two searches between the same trials. -/
structure Alongside (s : Bisection α) (t : State α V) (t' : Backtracking.State α) : Prop where
  alpha : t'.alpha = t.alpha
  low : t.low = 0
  best : t.best = none
  values : t'.trials = t.values
  gradients : t.gradients = 0
  halvable : Halvable t.alpha
  bounded : t.alpha ≤ 2.0 * s.alphaMax

/-- The two searches share their parameters; the one does not ask for the curvature condition, and
the other contracts by one half. -/
structure OneHalf (s : Bisection α) (b : Backtracking α) : Prop where
  wolfe : s.wolfe = false
  rho : b.rho = 0.5
  c1 : b.c1 = s.c1
  maxIter : b.maxIter = s.maxIter
  alphaMin : b.alphaMin = s.alphaMin

variable [Halves α]

omit [Space α V] in
/-- A rejected step leads both searches to its half, or ends them. -/
theorem Alongside.advance (hs : s.OneHalf b) (h : s.Alongside t t') (r : Ray α V) :
    Sum.LiftRel s.Alongside Step.Twin
      (s.advance r { t with high := upperEnd t.alpha, values := t.values + 1 })
      (if t'.alpha * b.rho < b.alphaMin then
          .inr (.failed r (t'.trials + 1) 0 (.tooShort b.alphaMin))
        else .inl ⟨t'.alpha * b.rho, t'.trials + 1⟩) := by
  have hend : upperEnd t.alpha = some t.alpha := if_pos h.halvable.1
  have hnext : nextStep t.low (some t.alpha) = t.alpha * 0.5 := by
    rw [nextStep, h.low, Halves.zero_add _ h.halvable, Halves.half_comm _ h.halvable]
  -- the half is not too long, and the bracket is too small only if the half is too short
  have hnotlong : ¬ s.alphaMax < t.alpha * 0.5 := Halves.not_lt_half _ _ h.halvable h.bounded
  have hwidth : t.alpha - t.low < s.alphaMin → t.alpha * 0.5 < s.alphaMin := by
    rw [h.low, Halves.sub_zero _ h.halvable]
    exact Halves.half_lt _ _ h.halvable
  have hexhausted : s.exhausted { t with
      alpha := t.alpha * 0.5, high := some t.alpha, values := t.values + 1 } =
        decide (t.alpha * 0.5 < s.alphaMin) := by
    by_cases hshort : t.alpha * 0.5 < s.alphaMin
    · simp [exhausted, hshort]
    · simp [exhausted, hshort, hnotlong, mt hwidth hshort]
  simp only [Bisection.advance, hend, hnext, hexhausted, hs.rho, hs.alphaMin, h.alpha, h.values,
    decide_eq_true_eq]
  split_ifs with hshort
  · apply Sum.LiftRel.inr
    simp only [conclude, h.best, h.gradients]
    exact .failed ..
  · exact .inl ⟨rfl, h.low, h.best, rfl, h.gradients, Halves.halvable _ h.halvable,
      Halves.half_le _ _ h.halvable h.bounded⟩

/-- Both searches make the same trial; they take it, or they reject it. -/
theorem alike_attempt (hs : s.OneHalf b) (o : Oracle α V M) (r : Ray α V) (slope : α)
    (t : State α V) (t' : Backtracking.State α) :
    Alike (fun l l' => s.Alongside t t' ∧ l = l') (s.attempt o r slope t) (b.attempt o r slope t')
      (fun u l u' l' => Sum.LiftRel (fun t t' => s.Alongside t t' ∧ l = l')
        (fun step step' => step.Twin step' ∧ l = l') u u') Eq := by
  refine .of_known (fun _ _ h => h) fun h => ?_
  simp only [attempt, Backtracking.attempt, h.alpha, hs.c1, hs.wolfe]
  refine .bind (Lockstep.refl _) fun f f' => .of_known (fun _ _ h => h) ?_
  rintro rfl
  refine .ite Iff.rfl (fun _ => ?_) fun _ => ?_
  · refine .bind (Lockstep.refl _) fun g g' => .of_known (fun _ _ h => h) ?_
    rintro rfl
    refine .pure fun l l' hl => .inr ⟨⟨rfl, rfl, ?_, ?_, rfl, fun _ => rfl⟩, hl⟩
    · simp [Step.accepted, h.values]
    · simp [Step.accepted, h.gradients]
  · have hadvance := h.advance hs r
    rw [h.alpha] at hadvance
    split_ifs at hadvance ⊢ with hshort
    · exact .pure fun l l' hl => hadvance.mono (fun _ _ h => ⟨h, hl⟩) fun _ _ h => ⟨h, hl⟩
    · exact .pure fun l l' hl => hadvance.mono (fun _ _ h => ⟨h, hl⟩) fun _ _ h => ⟨h, hl⟩

theorem alike_search (hs : s.OneHalf b) (o : Oracle α V M) {asked : Option α}
    (hasked : asked.getD b.alpha0 = asked.getD s.alpha0)
    (hle : asked.getD s.alpha0 ≤ 2.0 * s.alphaMax) :
    Alike Eq (s.search o r asked) (b.search o r asked)
      (fun step l step' l' => step.Twin step' ∧ l = l') Eq := by
  rw [search, Backtracking.search, r.prepare_congr hasked, hs.maxIter]
  cases hprepare : r.prepare s.alpha0 asked with
  | error e => exact .throw e fun _ _ hl => hl
  | ok first =>
    obtain ⟨slope, alpha⟩ := first
    obtain ⟨-, -, hpos, hfinite⟩ := Ray.prepare_eq_ok hprepare
    have hbegin : s.Alongside (initial alpha : State α V) ⟨alpha, 0⟩ :=
      ⟨rfl, rfl, rfl, rfl, rfl, ⟨hfinite, .inl hpos⟩, r.step_of_prepare hprepare ▸ hle⟩
    have hloop := Alike.upTo (alike_attempt hs o r slope) s.maxIter.toNat (initial alpha) ⟨alpha, 0⟩
    change Alike Eq (upTo (s.attempt o r slope) s.maxIter.toNat (initial alpha) >>= _)
      (upTo (b.attempt o r slope) s.maxIter.toNat ⟨alpha, 0⟩ >>= _) _ Eq
    refine .bind (hloop.mono (fun _ _ hl => ⟨hbegin, hl⟩) (fun _ _ _ _ h => h) fun _ _ h => h) ?_
    rintro (t | step) (t' | step')
    · refine .pure fun l l' h => ?_
      obtain ⟨ht, hl⟩ := Sum.liftRel_inl_inl.mp h
      refine ⟨?_, hl⟩
      simp only [conclude, ht.best, ht.gradients, ht.values]
      exact .failed ..
    · exact fun l l' h => absurd h Sum.not_liftRel_inl_inr
    · exact fun l l' h => absurd h Sum.not_liftRel_inr_inl
    · refine .pure fun l l' h => ?_
      cases h with
      | inr h => exact h

/-- Without the curvature condition the search by doubling and halving is backtracking by one half.
In exact arithmetic as well as among doubles, on every problem and whatever the parameters are that
the two searches share, a first step that is at most twice the longest one leads both to the same
questions in the same order, and to the same fault or to steps that are the same except for the
message of a failure. -/
theorem search_eq_backtracking (hs : s.OneHalf b) (o : Oracle α V M) (r : Ray α V)
    {asked : Option α} (hasked : asked.getD b.alpha0 = asked.getD s.alpha0)
    (hle : asked.getD s.alpha0 ≤ 2.0 * s.alphaMax) (l : Ledger α V) :
    ∃ result result' l', (s.search o.recorded r asked).perform l = (result, l') ∧
      (b.search o.recorded r asked).perform l = (result', l') ∧ SameOutcome result result' := by
  have hends := alike_search (r := r) hs o.recorded hasked hle l l rfl
  rw [Eval.perform, Eval.perform]
  generalize (s.search o.recorded r asked).run.run l = x,
    (b.search o.recorded r asked).run.run l = x' at hends ⊢
  rcases x with ⟨e | step, l₁⟩ <;> rcases x' with ⟨e' | step', l₂⟩
  · obtain ⟨he, rfl⟩ := hends
    exact ⟨_, _, _, rfl, rfl, he⟩
  · exact hends.elim
  · exact hends.elim
  · obtain ⟨hstep, rfl⟩ := hends
    exact ⟨_, _, _, rfl, rfl, hstep⟩

/-- The function `½ x²` of one double. -/
def halfSquareOracle : Oracle Float (Vector Float 1) Unit :=
  { Oracle.absent with
    value := fun x => pure (0.5 * Space.inner x x)
    gradient := pure }

/-- Both searches come down from the step `4` to the minimum, at the step `1`. -/
theorem search_eq_backtracking_double :
    let s : Bisection Float := { standard with wolfe := false, alphaMax := 2.0 }
    let b : Backtracking Float := { Backtracking.standard with maxIter := 50 }
    let r : Ray Float (Vector Float 1) := ⟨⟨#v[1.0], 0.5, #v[1.0]⟩, #v[-1.0]⟩
    ∃ step step' l, (s.search halfSquareOracle.recorded r (some 4.0)).perform {} = (.ok step, l) ∧
      (b.search halfSquareOracle.recorded r (some 4.0)).perform {} = (.ok step', l) ∧
      step.success = true ∧ step.values = 3 ∧ step.Twin step' := by
  intro s b r
  have hs : s.OneHalf b := ⟨rfl, rfl, rfl, rfl, rfl⟩
  have hasked : (some (4.0 : Float)).getD b.alpha0 = (some 4.0).getD s.alpha0 := rfl
  have hle : (some (4.0 : Float)).getD s.alpha0 ≤ 2.0 * s.alphaMax := by decide +kernel
  obtain ⟨result, result', l, hrun, hrun', hsame⟩ :=
    search_eq_backtracking hs halfSquareOracle r hasked hle {}
  have hok : ((s.search halfSquareOracle.recorded r (some 4.0)).perform {}).1.toOption.map
      (fun step => (step.success, step.values)) = some (true, 3) := by
    decide +kernel
  rw [hrun] at hok
  rcases result with e | step <;> rcases result' with e' | step'
  · cases hok
  · cases hok
  · exact hsame.elim
  · obtain ⟨hsuccess, hvalues⟩ := Prod.mk.inj (Option.some.inj hok)
    exact ⟨step, step', l, hrun, hrun', hsuccess, hvalues, hsame⟩

end Bisection

end Downhill
