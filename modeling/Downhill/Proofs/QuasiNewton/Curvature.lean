import Downhill.Proofs.Descent.Answers
import Downhill.Proofs.Descent.Coherence
import Downhill.Proofs.QuasiNewton.Memory
import Downhill.Proofs.Solver.Equipped

/-! The curvature of the steps that limited-memory directions learn from. A step that meets the
strong Wolfe conditions has a positive product with the change of the gradient across it, and its
pair is stored. A search that stops early hands over its best step without a curvature condition;
only after such a search can a pair be refused. -/
namespace Downhill
variable {K M : Type} [ExactField K] {n : ℕ}

open Exact

/-- Along a direction that descends, the strong curvature condition keeps the product of the step
and the change of the gradient away from zero. -/
theorem curvature_of_wolfe {g g' d : Fin n → K} {c t : K} (hneg : g ⬝ᵥ d < 0)
    (hwolfe : |g' ⬝ᵥ d| ≤ c * |g ⬝ᵥ d|) (hc : c < 1) (ht : 0 < t) :
    (1 - c) * t * |g ⬝ᵥ d| ≤ (t • d) ⬝ᵥ (g' - g) ∧ 0 < (t • d) ⬝ᵥ (g' - g) := by
  have hproduct : (t • d) ⬝ᵥ (g' - g) = t * (g' ⬝ᵥ d - g ⬝ᵥ d) := by
    rw [smul_dotProduct, dotProduct_sub, smul_eq_mul, dotProduct_comm d, dotProduct_comm d]
  have hgain : (1 - c) * |g ⬝ᵥ d| ≤ g' ⬝ᵥ d - g ⬝ᵥ d := by
    have hslope : |g ⬝ᵥ d| = -(g ⬝ᵥ d) := abs_of_neg hneg
    linarith [neg_abs_le (g' ⬝ᵥ d)]
  have hbound : (1 - c) * t * |g ⬝ᵥ d| ≤ (t • d) ⬝ᵥ (g' - g) := by
    rw [hproduct, mul_comm (1 - c) t, mul_assoc]
    exact mul_le_mul_of_nonneg_left hgain ht.le
  exact ⟨hbound, (mul_pos (mul_pos (sub_pos.mpr hc) ht) (abs_pos.mpr hneg.ne)).trans_le hbound⟩

/-- A ray with a slope that reaches a finite point is finite, and so is the step. -/
theorem Ray.exists_lift_of_along {r : Ray (Exact K) (Vector (Exact K) n)} {alpha : Exact K}
    (hneg : Space.inner r.start.gradient r.direction < 0) (h : allFinite (r.along alpha) = true) :
    ∃ t x d, alpha = number t ∧ r.start.point = lift x ∧ r.direction = lift d := by
  obtain ⟨z, hz⟩ := exists_lift h
  have hparts : ∀ i (hi : i < n), ∃ t x d, alpha = number t ∧ r.start.point[i] = number x ∧
      r.direction[i] = number d := by
    intro i hi
    have hsum : r.start.point[i] + alpha * r.direction[i] = number (z ⟨i, hi⟩) := by
      rw [← getElem_lift, ← hz]
      simp [Ray.along]
    obtain ⟨x, m, hx, hm⟩ := add_eq_number hsum
    obtain ⟨t, d, ht, hd⟩ := mul_eq_number hm
    exact ⟨t, x, d, ht, hx, hd⟩
  obtain ⟨x, hx⟩ := exists_lift (v := r.start.point) (by
    simpa [allFinite] using fun i hi => by
      obtain ⟨_, x, _, -, hx, -⟩ := hparts i hi
      rw [hx, isFinite_number])
  obtain ⟨d, hd⟩ := exists_lift (v := r.direction) (by
    simpa [allFinite] using fun i hi => by
      obtain ⟨_, _, d, -, -, hd⟩ := hparts i hi
      rw [hd, isFinite_number])
  -- Without entries the slope would be zero.
  have hn : 0 < n := by
    by_contra hzero
    obtain rfl : n = 0 := by omega
    have hempty : ∀ v : Vector (Exact K) 0, v = lift 0 := fun v => by ext i hi; omega
    rw [hempty r.start.gradient, hempty r.direction, Space.inner_vector, dot_lift,
      zero_dotProduct] at hneg
    exact Exact.lt_irrefl _ hneg
  obtain ⟨t, _, _, ht, -⟩ := hparts 0 hn
  exact ⟨t, x, d, ht, hx, hd⟩

namespace MoreThuente
variable {α V : Type} [Scalar α] [Space α V] {o : Oracle α V M} {r : Ray α V} {s : MoreThuente α}

/-- A search that succeeds met the strong Wolfe conditions or stopped early. -/
def Explained (step : Step α V) : Prop :=
  step.success = true → step.message = .strongWolfe ∨ ∃ cause, step.message = .stoppedWithBest cause

omit [Space α V] in
theorem explained_conclude (candidate : Option (α × Iterate α V)) (trials : ℕ) (cause : EarlyStop) :
    Explained (conclude r candidate trials cause) := by
  unfold conclude
  split
  · exact fun _ => .inr ⟨cause, rfl⟩
  · rintro ⟨⟩

theorem yields_explained (o : Oracle α V M) (r : Ray α V) (asked : Option α) :
    Yields (s.search o r asked) Explained := by
  have hround : ∀ slope st,
      Yields (s.attempt o r slope st) (Sum.elim (fun _ => True) Explained) := by
    intro slope st
    refine .bind .any fun f _ => .bind .any fun g _ => .bind .any fun _ _ => .bind .any fun _ _ =>
      .bind .any fun _ _ => .pure ?_
    obtain ⟨-, hj⟩ | ⟨cause, hj⟩ | ⟨-, -, -, hj⟩ := judge_cases s r slope st ⟨_, f, g⟩ <;> rw [hj]
    · exact fun _ => .inl rfl
    · exact explained_conclude _ _ cause
    · trivial
  refine .bind .any fun ⟨slope, alpha⟩ _ =>
    .rounds (I := fun _ => True) (fun st _ => hround slope st) trivial _ fun u hu => ?_
  cases u with
  | inl st => exact .pure (explained_conclude _ _ _)
  | inr step => exact .pure hu

end MoreThuente

section Search
variable {o : Oracle (Exact K) (Vector (Exact K) n) M} {s : MoreThuente (Exact K)}
  {r : Ray (Exact K) (Vector (Exact K) n)} {asked : Option (Exact K)}
  {l : Ledger (Exact K) (Vector (Exact K) n)} {step : Step (Exact K) (Vector (Exact K) n)}

/-- A step that meets the strong Wolfe conditions has curvature. -/
theorem MoreThuente.curvature_of_strongWolfe (hs : s.check = .ok ()) (ho : o.Quiet)
    (hstart : o.valueAt r.start.point = .ok r.start.value)
    (hgradient : Space.finite r.start.gradient = true)
    (hstep : ((s.search o.recorded r asked).run.run l).1 = .ok step)
    (hsuccess : step.success = true) (hfinite : Descent.finiteStep step = true)
    (hmessage : step.message = .strongWolfe) :
    let sy := dot (step.reached.point - r.start.point) (step.reached.gradient - r.start.gradient)
    (1 - s.c2) * step.alpha * Scalar.abs (dot r.start.gradient r.direction) ≤ sy ∧
      History.Passes 0 sy := by
  have hmeets :=
    LineSearch.ensures_search (s := .moreThuente s) hs rfl ho r asked l.asked hstart l rfl
  have hneg :=
    LineSearch.ensures_descending (o := o.recorded) (s := .moreThuente s) r asked l trivial
  have hrun : (((LineSearch.moreThuente s).search o.recorded r asked).run.run l).1 = .ok step :=
    hstep
  rw [hrun] at hmeets hneg
  obtain ⟨hpos, hpoint, -⟩ := hmeets.taken hsuccess
  obtain ⟨_, ⟨⟩, hwolfe⟩ := hmeets.strongWolfe hmessage
  simp only [Descent.finiteStep, Bool.and_eq_true] at hfinite
  obtain ⟨t, x, d, ht, hx, hd⟩ := Ray.exists_lift_of_along hneg (hpoint ▸ hfinite.1.1)
  obtain ⟨g, hg⟩ := exists_lift hgradient
  obtain ⟨g', hg'⟩ := exists_lift hfinite.2
  obtain ⟨_, c2, _, haccepted⟩ := exists_accepted hs
  have hmove : step.reached.point - r.start.point = lift (t • d) := by
    rw [hpoint, ht, hx, hd, number_mul_lift, lift_add, lift_sub, add_sub_cancel_left]
  rw [hd, hg, Space.inner_vector, dot_lift] at hneg
  rw [hd, hg, hg', haccepted.c2_eq, Space.inner_vector, Space.inner_vector, dot_lift, dot_lift,
    abs_number, abs_number, number_mul, number_le] at hwolfe
  rw [ht] at hpos
  have hcurvature :=
    curvature_of_wolfe (number_lt.mp hneg) hwolfe haccepted.c2_lt (number_lt.mp hpos)
  intro sy
  have hproduct : sy = number ((t • d) ⬝ᵥ (g' - g)) := by
    simp only [sy, hmove, hg, hg', lift_sub, dot_lift]
  rw [hproduct, ht, hd, hg, haccepted.c2_eq, dot_lift, abs_number, one_eq, number_sub, number_mul,
    number_mul]
  exact ⟨hcurvature.1, isFinite_number, hcurvature.2⟩

end Search

/-- A step that was found by a search that stopped early. -/
def Step.stoppedEarly {α V : Type} (step : Step α V) : Bool :=
  match step.message with
  | .stoppedWithBest _ => step.success
  | _ => false

/-- The event is a search that stopped early and found a step. -/
def Event.stoppedEarly {α V : Type} : Event α V → Bool
  | ⟨.search _ _, .ok step⟩ => step.stoppedEarly
  | _ => false

/-- What is reported is the step that the last search has found. -/
theorem Phase.exists_search_of_update {α V : Type} [Scalar α] [Space α V] {start : Iterate α V}
    {before rest : List (Event α V)} {u y g : V} {alpha : α} {direction : V}
    {r : Except (Fault α) Unit}
    (h : (ready start).Obeys (before ++ ⟨.update u y g alpha direction, r⟩ :: rest)) :
    ∃ earlier x asked step, before = earlier ++ [⟨.search ⟨x, direction⟩ asked, .ok step⟩] ∧
      ((ready start).along before).iterate = x ∧ step.success = true ∧
      Descent.finiteStep step = true ∧ u = step.reached.point - x.point ∧
      y = step.reached.gradient - x.gradient ∧ g = step.reached.gradient ∧ alpha = step.alpha := by
  rw [obeys_append] at h
  have hdue := due_of_eq_some h.2.1
  generalize hp : (ready start).along before = p at hdue
  cases hdue with
  | @update x _ again step hok hfin =>
    obtain ⟨earlier, asked, hbefore⟩ := exists_search h.1 hp
    exact ⟨earlier, x, asked, step, hbefore, rfl, hok, hfin, rfl, rfl, rfl, rfl⟩

namespace Descent

/-- The step and the change of the gradient that are reported after some events are those of the
step that the last of them has found. They are curved, unless that search stopped early. -/
def Curved (s : MoreThuente (Exact K)) (before : List (Event (Exact K) (Vector (Exact K) n)))
    (u y : Vector (Exact K) n) (alpha : Exact K) (direction : Vector (Exact K) n) : Prop :=
  ∃ earlier ray asked step, before = earlier ++ [⟨.search ray asked, .ok step⟩] ∧
    ray.direction = direction ∧ step.alpha = alpha ∧ step.success = true ∧
    u = step.reached.point - ray.start.point ∧ y = step.reached.gradient - ray.start.gradient ∧
    (step.message = .strongWolfe ∧
        (1 - s.c2) * alpha * Scalar.abs (dot ray.start.gradient direction) ≤ dot u y ∧
        History.Passes 0 (dot u y) ∨
      ∃ cause, step.message = .stoppedWithBest cause)

variable {σ : Type} {d : Descent σ Unit (Exact K) (Vector (Exact K) n) M}
  {o : Oracle (Exact K) (Vector (Exact K) n) M} {s : MoreThuente (Exact K)}
  {start : Iterate (Exact K) (Vector (Exact K) n)}
  {begun t : Flow σ Unit (Exact K) (Vector (Exact K) n) × Ledger (Exact K) (Vector (Exact K) n)}
  {before rest : List (Event (Exact K) (Vector (Exact K) n))} {u y g direction : Vector (Exact K) n}
  {alpha : Exact K} {r : Except (Fault (Exact K)) Unit}

/-- The steps of a run are curved, unless the search stopped early. -/
theorem Transcript.curved (hd : d.search = (LineSearch.moreThuente s).machine)
    (hs : s.check = .ok ()) (ho : o.Quiet) (hpoint : Space.finite start.point = true)
    (hgradient : Space.finite start.gradient = true) (hfaithful : o.Faithful start)
    (h : d.Transcript o.recorded begun (before ++ ⟨.update u y g alpha direction, r⟩ :: rest) t)
    (hobeys : (Phase.ready start).Obeys (before ++ ⟨.update u y g alpha direction, r⟩ :: rest)) :
    Curved s before u y alpha direction := by
  obtain ⟨earlier, x, asked, step, rfl, hx, hok, hfin, rfl, rfl, rfl, rfl⟩ :=
    Phase.exists_search_of_update hobeys
  refine ⟨earlier, _, asked, step, rfl, rfl, rfl, hok, rfl, rfl, ?_⟩
  obtain ⟨_, _, _, hbefore, -⟩ := h.exists_before rfl
  rw [Phase.obeys_append] at hobeys
  have hbears := (hbefore.bears (handsOn_faithful hd ho)
    (Phase.bears_of_not_found (p := .ready start) ⟨hpoint, hfaithful⟩ rfl) hobeys.1).iterate
  have hsound : Space.finite x.gradient = true :=
    hx ▸ ((show (Phase.ready start).Sound from hgradient).along hobeys.1).finite
  obtain ⟨f, l, _, -, hserve⟩ := hbefore.exists_before rfl
  have hstep : ((s.search o.recorded ⟨x, direction⟩ asked).run.run l).1 = .ok step :=
    search_of_serve hd (congrArg Prod.fst hserve)
  have hexplained := s.yields_explained o.recorded ⟨x, direction⟩ asked l trivial
  rw [hstep] at hexplained
  obtain hstrong | ⟨cause, hcause⟩ := hexplained hok
  · exact .inl ⟨hstrong, MoreThuente.curvature_of_strongWolfe (r := ⟨x, direction⟩) hs ho
      (hx ▸ hbears.2.1) hsound hstep hok hfin hstrong⟩
  · exact .inr ⟨cause, hcause⟩

end Descent

/-- What only comes right after something else comes at most as often. -/
theorem countP_le_of_preceded {β : Type} {P Q : β → Bool} {l : List β}
    (h : ∀ before e rest, l = before ++ e :: rest → P e = true →
      ∃ earlier q, before = earlier ++ [q] ∧ Q q = true) : l.countP P ≤ l.countP Q := by
  -- The last entry of the list comes before nothing, so it need not be counted on the right.
  suffices l.countP P ≤ l.dropLast.countP Q from
    this.trans (List.Sublist.countP_le (List.dropLast_sublist l))
  induction l using List.reverseRecOn with
  | nil => exact Nat.zero_le _
  | append_singleton l e ih =>
    have hl := ih fun before e' rest hsplit => h before e' (rest ++ [e]) (by simp [hsplit])
    rw [List.countP_append, List.countP_singleton, List.dropLast_concat]
    split_ifs with he
    · obtain ⟨earlier, q, rfl, hq⟩ := h l e [] rfl he
      rw [List.dropLast_concat] at hl
      calc (earlier ++ [q]).countP P + 1 ≤ earlier.countP Q + 1 := Nat.succ_le_succ hl
        _ = (earlier ++ [q]).countP Q := by
          rw [List.countP_append, List.countP_singleton, if_pos hq]
    · exact hl.trans (List.Sublist.countP_le (List.dropLast_sublist l))

namespace QuasiNewton
variable {q : QuasiNewton (Exact K)} {s : MoreThuente (Exact K)}
  {p : Problem (Exact K) (Vector (Exact K) n) (Matrix (Exact K) n)} {config : Config (Exact K)}
  {x : Vector (Exact K) n} {start : Iterate (Exact K) (Vector (Exact K) n)}

/-- Once its strategy has agreed to begin, a run has counted the pairs that were refused. -/
theorem skipped_run {m : ℤ} {d : Descent (State (Exact K) m.toNat (Vector (Exact K) n)) Unit
      (Exact K) (Vector (Exact K) n) (Matrix (Exact K) n)} (hd : d.strategy = strategy ⟨m, 0⟩)
    {state prepared : State (Exact K) m.toNat (Vector (Exact K) n)}
    (hprepare : d.strategy.prepare (d.work (Space.size x)) start state = .ok prepared)
    (hstart : d.opened x = .ok (.inl start)) :
    (d.run x state ()).flow.strategy.skipped =
      (d.run x state ()).flow.calls.toList.countP (refused 0) := by
  have h0 : (0 : Exact K) ≤ 0 := number_le.mpr le_rfl
  rw [hd] at hprepare
  have hbegin : begin ⟨m, 0⟩ start.point = .ok prepared := hprepare
  obtain ⟨ring, hmake, -⟩ := bind_eq_ok_iff.mp hbegin
  have hsizes : 1 ≤ m ∧ 1 ≤ n := by
    unfold History.make at hmake
    split_ifs at hmake with hm hn
    exact ⟨hm, by exact_mod_cast hn⟩
  have hroom : 0 < m.toNat := by omega
  exact congrArg State.skipped (strategy_run hd h0 (History.make_of_pos hroom hsizes.2 0)
    (History.Queued.calls h0 hroom) hstart state ())

/-- In exact arithmetic, the steps that a run with limited-memory directions and More and Thuente's
search takes are curved, unless the search stopped early: a step that meets the strong Wolfe
conditions has a product with the change of the gradient of at least `(1 - c2) * alpha * |slope|`,
which is positive. With the threshold zero no more pairs are refused than searches stopped early. -/
theorem run_curvature (hs : s.check = .ok ())
    (state : State (Exact K) q.memory.toNat (Vector (Exact K) n)) :
    let d : Descent _ Unit (Exact K) _ _ :=
      ⟨p, strategy q, (LineSearch.moreThuente s).machine, config⟩
    let record := d.run x state ()
    d.opened x = .ok (.inl start) →
    (∃ f, record.result = .error f ∧ record.flow.trace = #[]) ∨
    ∃ events ledger, d.Converses x start state () events record.flow ledger ∧
      (∀ before rest u y g alpha direction r,
        events = before ++ ⟨.update u y g alpha direction, r⟩ :: rest →
        Descent.Curved s before u y alpha direction) ∧
      (q.threshold = 0 →
        record.flow.strategy.skipped ≤ events.countP Event.stoppedEarly) := by
  obtain ⟨m, threshold⟩ := q
  intro d record hstart
  obtain ⟨f, -, hresult, hflow⟩ | ⟨events, ledger, hconverses, -⟩ :=
    Descent.run_converses state () hstart
  · exact .inl ⟨f, hresult, by rw [hflow]; rfl⟩
  obtain ⟨hobeys, prepared, hprepare, htranscript⟩ := id hconverses
  have ho := d.problem.quiet_differentiable (Space.size x) d.strategy.needsHessian
  obtain ⟨hpoint, hx, -, hgradient⟩ := Descent.opened_finite hstart
  have hfaithful := (Descent.opened_faithful hx hstart).2
  have hcurved : ∀ before rest u y g alpha direction r,
      events = before ++ ⟨.update u y g alpha direction, r⟩ :: rest →
      Descent.Curved s before u y alpha direction := by
    rintro before rest u y g alpha direction r rfl
    exact htranscript.curved rfl hs ho (hpoint ▸ hx) hgradient hfaithful hobeys
  refine .inr ⟨events, ledger, hconverses, hcurved, ?_⟩
  rintro rfl
  rw [skipped_run rfl hprepare hstart, htranscript.calls_eq]
  change (.prepare :: events.map Event.call).countP (refused 0) ≤ _
  rw [List.countP_cons_of_neg Bool.false_ne_true, List.countP_map]
  refine countP_le_of_preceded fun before e rest hsplit he => ?_
  obtain ⟨query, r⟩ := e
  cases query with
  | update u y g alpha direction =>
    obtain ⟨earlier, ray, asked, step, hbefore, -, -, hok, -, -, hcurve⟩ :=
      hcurved _ _ _ _ _ _ _ _ hsplit
    obtain ⟨-, -, hpasses⟩ | ⟨cause, hstep⟩ := hcurve
    · exact absurd hpasses (by simpa [refused, Event.call, Query.call] using he)
    · refine ⟨earlier, _, hbefore, ?_⟩
      simp [Event.stoppedEarly, Step.stoppedEarly, hstep, hok]
  | _ => cases he

/-- On a quadratic two steps, the second as long as its direction, lead to the minimum. Both are
curved and no pair is refused. -/
theorem run_curvature_bowl :
    let s : MoreThuente (Exact ℚ) := .standard 0.9
    let d : Descent _ Unit (Exact ℚ) (Vector (Exact ℚ) 2) (Matrix (Exact ℚ) 2) :=
      ⟨LineSearch.bowl, strategy ⟨10, 0⟩, (LineSearch.moreThuente s).machine, ⟨9, 1e-6, false⟩⟩
    let record := d.run #v[0, 0] fresh ()
    let g : Vector (Exact ℚ) 2 := #v[number (-3 / 4), number (-3 / 4)]
    let v : Vector (Exact ℚ) 2 := #v[number (1 / 4), number (1 / 4)]
    record.flow.calls.toList = [.prepare, .compute, .initialStep #v[-3, -3] #v[3, 3],
        .search #v[3, 3],
        .update (-g) #v[number (9 / 4), number (9 / 4)] g (number (1 / 4)) #v[3, 3],
        .compute, .initialStep g v, .search v, .update v (-g) #v[0, 0] 1 v] ∧
      record.flow.strategy.skipped = 0 ∧
      ∃ events, record.flow.calls.toList = .prepare :: events.map Event.call ∧
        (∀ before rest u y g alpha direction r,
          events = before ++ ⟨.update u y g alpha direction, r⟩ :: rest →
          Descent.Curved s before u y alpha direction) ∧
        record.flow.strategy.skipped ≤ events.countP Event.stoppedEarly := by
  intro s d record g v
  have hstart : d.opened #v[0, 0] = .ok (.inl ⟨#v[0, 0], 0, #v[-3, -3]⟩) := by decide +kernel
  have htrace : record.flow.trace.size = 2 := by decide +kernel
  obtain ⟨_, -, hempty⟩ | ⟨events, ledger, ⟨-, _, -, htranscript⟩, hcurved, hskipped⟩ :=
    run_curvature (q := ⟨10, 0⟩) (s := s) (by decide +kernel) fresh hstart
  · cases htrace.symm.trans (congrArg Array.size hempty)
  · exact ⟨by decide +kernel, by decide +kernel, events, htranscript.calls_eq, hcurved,
      hskipped rfl⟩

/-- Where the objective falls without end the search stops at its greatest step, with success. The
gradient has not changed across that step: the pair is refused. -/
theorem run_curvature_unbounded :
    let p : Problem (Exact ℚ) (Vector (Exact ℚ) 1) (Matrix (Exact ℚ) 1) :=
      ⟨"slope", none, fun x => .ok (-first x), some fun _ => .ok #v[-1], none, gradientTest⟩
    let d : Descent _ Unit (Exact ℚ) _ _ :=
      ⟨p, strategy ⟨10, 0⟩, (LineSearch.moreThuente (.standard 0.9)).machine, ⟨1, 1e-6, false⟩⟩
    let record := d.run #v[0] fresh ()
    record.flow.calls.toList = [.prepare, .compute, .initialStep #v[-1] #v[1], .search #v[1],
        .update #v[1e20] #v[0] #v[-1] 1e20 #v[1]] ∧
      dot (#v[1e20] : Vector (Exact ℚ) 1) #v[0] = 0 ∧ record.flow.strategy.skipped = 1 := by
  decide +kernel

end QuasiNewton

end Downhill
