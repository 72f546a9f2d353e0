import Downhill.Descent.Script
import Downhill.Proofs.ConjugateGradient.Reliable
import Downhill.Proofs.Descent.Answers

/-! The rule of Fletcher and Reeves under steps that leave only a share `c ≤ 1/2` of the slope. The
slope along a direction is then between two multiples of the squared gradient: what is left of it
bounds the share of the last direction in the next one from both sides, so that the next slope is in
the same range. A direction that starts afresh is in it anyway. -/
open Matrix

namespace Downhill
variable {ρ K M : Type} [ExactField K] {n : ℕ}

open Exact

/-- The slope along `v` at a gradient `g` is neither too steep nor too flat. -/
structure SlopeRange (c : K) (g v : Fin n → K) : Prop where
  steepest : -(g ⬝ᵥ g) / (1 - c) ≤ g ⬝ᵥ v
  flattest : g ⬝ᵥ v ≤ -((1 - 2 * c) / (1 - c)) * (g ⬝ᵥ g)

namespace SlopeRange
variable {c : K} {g g' v : Fin n → K} (hc : 0 < c) (hhalf : c ≤ 1 / 2)
include hc hhalf

/-- A slope of at least minus and at most plus this share of the squared gradient is added to minus
the squared gradient. -/
theorem of_abs_le {t : K} (h : |t| * (1 - c) ≤ c * (g ⬝ᵥ g)) (hv : g ⬝ᵥ v = -(g ⬝ᵥ g) + t) :
    SlopeRange c g v := by
  have hpos : 0 < 1 - c := by linarith
  have hbounds := abs_le.mp (le_div_iff₀ hpos |>.mpr h)
  have hsplit : c * (g ⬝ᵥ g) / (1 - c) = (g ⬝ᵥ g) / (1 - c) - g ⬝ᵥ g := by
    field_simp
    ring
  have hflat : -((1 - 2 * c) / (1 - c)) * (g ⬝ᵥ g) = -(g ⬝ᵥ g) + c * (g ⬝ᵥ g) / (1 - c) := by
    field_simp
    ring
  refine ⟨?_, ?_⟩
  · rw [hv, neg_div]
    linarith [hbounds.1]
  · rw [hv, hflat]
    linarith [hbounds.2]

/-- Steepest descent is in the range. -/
theorem steepestDescent : SlopeRange c g (-g) := by
  refine of_abs_le hc hhalf (t := 0) ?_ (by rw [dotProduct_neg, add_zero])
  rw [abs_zero, zero_mul]
  exact mul_nonneg hc.le (dotProduct_self_nonneg g)

theorem abs_le (h : SlopeRange c g v) : |g ⬝ᵥ v| * (1 - c) ≤ g ⬝ᵥ g := by
  have hpos : 0 < 1 - c := by linarith
  have hself := dotProduct_self_nonneg g
  have hnonpos : g ⬝ᵥ v ≤ 0 := by
    refine h.flattest.trans (mul_nonpos_of_nonpos_of_nonneg ?_ hself)
    exact neg_nonpos.mpr (div_nonneg (by linarith) hpos.le)
  rw [abs_of_nonpos hnonpos, ← le_div_iff₀ hpos, neg_le, ← neg_div]
  exact h.steepest

/-- The next direction of Fletcher and Reeves, where the last gradient was not zero. -/
theorem turned (hg : g ≠ 0) (h : |g' ⬝ᵥ v| * (1 - c) ≤ c * (g ⬝ᵥ g)) :
    SlopeRange c g' (-g' + (g' ⬝ᵥ g' / (g ⬝ᵥ g)) • v) := by
  have hself := dotProduct_self_pos hg
  have hshare : 0 ≤ g' ⬝ᵥ g' / (g ⬝ᵥ g) := div_nonneg (dotProduct_self_nonneg g') hself.le
  refine of_abs_le hc hhalf (t := g' ⬝ᵥ g' / (g ⬝ᵥ g) * (g' ⬝ᵥ v)) ?_ ?_
  · calc |g' ⬝ᵥ g' / (g ⬝ᵥ g) * (g' ⬝ᵥ v)| * (1 - c)
        = g' ⬝ᵥ g' / (g ⬝ᵥ g) * (|g' ⬝ᵥ v| * (1 - c)) := by
          rw [abs_mul, abs_of_nonneg hshare, mul_assoc]
      _ ≤ g' ⬝ᵥ g' / (g ⬝ᵥ g) * (c * (g ⬝ᵥ g)) := mul_le_mul_of_nonneg_left h hshare
      _ = c * (g' ⬝ᵥ g') := by field_simp
  · rw [dotProduct_add, dotProduct_neg, dotProduct_smul, smul_eq_mul]

omit hhalf in
theorem slope_neg (h : SlopeRange c g v) (hsharp : c < 1 / 2) (hg : g ≠ 0) : g ⬝ᵥ v < 0 := by
  refine h.flattest.trans_lt (mul_neg_of_neg_of_pos ?_ (dotProduct_self_pos hg))
  exact neg_neg_of_pos (div_pos (by linarith) (by linarith))

end SlopeRange

namespace ConjugateGradient
variable {c : K} {interval : Option ℕ} {g : Fin n → K} {st : State (Exact K) (Vector (Exact K) n)}
  {l : Ledger (Exact K) (Vector (Exact K) n)}

/-- The step that is remembered, if there is one, has left little of its slope at the gradient
`g`. -/
def Recalls (c : K) (g : Fin n → K) (st : State (Exact K) (Vector (Exact K) n)) : Prop :=
  ∀ last, st.memory = some last → ∃ g₀ v : Fin n → K,
    last.gradient = lift g₀ ∧ last.direction = lift v ∧ |g ⬝ᵥ v| * (1 - c) ≤ c * (g₀ ⬝ᵥ g₀)

/-- What the strategy answers at the gradient `g`, and what it remarks. -/
structure Proposes (c : K) (g : Fin n → K) (l : Ledger (Exact K) (Vector (Exact K) n))
    (r : Except (Fault (Exact K)) (Vector (Exact K) n) ×
      State (Exact K) (Vector (Exact K) n) × Ledger (Exact K) (Vector (Exact K) n)) : Prop where
  range : ∀ direction, r.1 = .ok direction → ∃ v, direction = lift v ∧ SlopeRange c g v
  remarks : r.2.2.remarks = l.remarks ∨
    ∃ reason, r.2.2.remarks = l.remarks.push (.restarted reason) ∧
      (c < 1 / 2 → reason ≠ .notDescending)

section Direction
variable (hc : 0 < c) (hhalf : c ≤ 1 / 2)
include hc hhalf

theorem proposes_restart {reason : Restart} (h : c < 1 / 2 → reason ≠ .notDescending) :
    Proposes c g l ((restart (lift g) reason).perform st l) := by
  refine ⟨fun direction hdirection => ?_, .inr ⟨reason, rfl, h⟩⟩
  cases hdirection
  exact ⟨-g, neg_lift g, .steepestDescent hc hhalf⟩

theorem Recalls.proposes (h : Recalls c g st) (l : Ledger (Exact K) (Vector (Exact K) n)) :
    Proposes c g l ((direction ⟨.fletcherReeves, interval⟩ (lift g)).perform st l) := by
  cases hmemory : st.memory with
  | none =>
    have hfresh : (direction ⟨.fletcherReeves, interval⟩ (lift g)).perform st l =
        (.ok (-lift g), st, l) := by
      simp only [direction, Act.perform_bind, Act.perform_state, hmemory, Act.perform_pure]
    rw [hfresh]
    exact ⟨fun direction hdirection =>
      ⟨-g, (Except.ok.inj hdirection).symm.trans (neg_lift g), .steepestDescent hc hhalf⟩, .inl rfl⟩
  | some last =>
    obtain ⟨g₀, v, hgradient, hdirection, hleft⟩ := h last hmemory
    by_cases hperiod : st.interval ≤ st.sinceRestart
    · simp only [direction, Act.perform_bind, Act.perform_state, hmemory, if_pos hperiod]
      exact proposes_restart hc hhalf fun _ => by decide
    have hbeta := beta_fletcherReeves hgradient g
    by_cases hzero : g₀ = 0
    · rw [if_pos hzero] at hbeta
      simp only [direction, Act.perform_bind, Act.perform_state, hmemory, if_neg hperiod,
        Act.perform_ofExcept, hbeta]
      refine ⟨fun direction hdirection => ?_, .inl rfl⟩
      cases hdirection
    rw [if_neg hzero] at hbeta
    have hrange := SlopeRange.turned hc hhalf hzero hleft
    rw [perform_direction_of_beta hmemory hperiod hdirection hbeta]
    split_ifs with hshare hdown
    · exact ⟨fun direction hdirection => ⟨_, (Except.ok.inj hdirection).symm, hrange⟩, .inl rfl⟩
    · refine proposes_restart hc hhalf fun hsharp => absurd (hrange.slope_neg hc hsharp ?_) hdown
      -- At a gradient of zero the share would have been zero.
      rintro rfl
      rw [dotProduct_zero, zero_div] at hshare
      exact hshare.false
    · exact proposes_restart hc hhalf fun _ => by decide

end Direction

/-- What is known of the strategy in a phase of a run. The directions that are searched may be those
of the strategy or steepest ones. -/
def Keeps (c : K) : Phase (Exact K) (Vector (Exact K) n) →
    State (Exact K) (Vector (Exact K) n) → Prop
  | .ready x, st => ∃ g, x.gradient = lift g ∧ Recalls c g st
  | .proposed x direction, _ =>
    ∃ g v, x.gradient = lift g ∧ direction = lift v ∧ SlopeRange c g v
  | .aimed x _, _ => ∃ g : Fin n → K, x.gradient = lift g
  | .primed x direction _ _, _ | .searched x direction _ _, _ =>
    ∃ g v, x.gradient = lift g ∧ direction = lift v ∧ SlopeRange c g v
  | .broken _ _, _ => True

variable {d : Descent (State (Exact K) (Vector (Exact K) n)) ρ (Exact K) (Vector (Exact K) n) M}
  {o : Oracle (Exact K) (Vector (Exact K) n) M}
  {f : Flow (State (Exact K) (Vector (Exact K) n)) ρ (Exact K) (Vector (Exact K) n)}
  {p : Phase (Exact K) (Vector (Exact K) n)}

/-- A step that is reported leaves at most the share `c` of the slope along its direction. -/
def Leaves (c : K) : Call (Exact K) (Vector (Exact K) n) → Prop
  | .update _ y gradient _ direction =>
    Scalar.abs (dot gradient direction) ≤ number c * Scalar.abs (dot (gradient - y) direction)
  | _ => True

instance decidableLeaves (c : K) (call : Call (Exact K) (Vector (Exact K) n)) :
    Decidable (Leaves c call) :=
  match call with
  | .update _ _ _ _ _ => inferInstanceAs (Decidable (_ ≤ _))
  | .prepare | .compute | .reset | .initialStep _ _ | .search _ => .isTrue trivial

/-- What the strategy answers when its turn has come. -/
theorem Keeps.proposes (hc : 0 < c) (hhalf : c ≤ 1 / 2) (hp : Keeps c p st)
    {x : Iterate (Exact K) (Vector (Exact K) n)} (hdue : Phase.Due p (.compute x))
    (o : Oracle (Exact K) (Vector (Exact K) n) M) (l : Ledger (Exact K) (Vector (Exact K) n)) :
    ∃ g, x.gradient = lift g ∧
      Proposes c g l (((strategy ⟨.fletcherReeves, interval⟩).compute o x).perform st l) := by
  cases hdue
  obtain ⟨g, hg, hrecalls⟩ := hp
  refine ⟨g, hg, ?_⟩
  have hproposes : Proposes c g l
      ((direction ⟨.fletcherReeves, interval⟩ (lift g)).perform st l) :=
    hrecalls.proposes hc hhalf l
  rwa [← hg] at hproposes

theorem Keeps.answered (hc : 0 < c) (hhalf : c ≤ 1 / 2)
    (hd : d.strategy = strategy ⟨.fletcherReeves, interval⟩) (hp : Keeps c p f.strategy)
    {e : Event (Exact K) (Vector (Exact K) n)} (hdue : Phase.Due p e.query)
    (hstep : Leaves c e.call)
    {t : Flow (State (Exact K) (Vector (Exact K) n)) ρ (Exact K) (Vector (Exact K) n) ×
      Ledger (Exact K) (Vector (Exact K) n)}
    (ht : (d.serve o e.query).perform f l = (e.answer, t)) :
    Keeps c (p.answered e) t.1.strategy := by
  rcases e with ⟨q, r⟩
  cases r with
  | error fault => trivial
  | ok answer =>
    cases hdue with
    | compute x =>
      obtain ⟨g, hg, hproposes⟩ := hp.proposes hc hhalf (.compute x) o l
      have hserve : ((d.serve o (.compute x)).perform f l).1 = .ok answer := congrArg Prod.fst ht
      rw [Descent.serve, hd] at hserve
      obtain ⟨v, hv, hrange⟩ := hproposes.range answer hserve
      exact ⟨g, v, hg, hv, hrange⟩
    | descends hfin hneg => exact hp
    | replaced hfin hneg =>
      obtain ⟨g, v, hg, -, -⟩ := hp
      exact ⟨g, hg⟩
    | steepest x again =>
      obtain ⟨g, hg⟩ := hp
      exact ⟨g, -g, hg, by rw [hg, neg_lift], .steepestDescent hc hhalf⟩
    | search x direction again asked => exact hp
    | repeated hfail hfirst =>
      obtain ⟨g, v, hg, -, -⟩ := hp
      exact ⟨g, hg⟩
    | @update x direction again step hok hfin =>
      obtain ⟨g, v, hg, rfl, hrange⟩ := hp
      simp only [Descent.finiteStep, Bool.and_eq_true] at hfin
      obtain ⟨g', hg'⟩ := exists_lift hfin.2
      refine ⟨g', hg', ?_⟩
      have hleft : |g' ⬝ᵥ v| ≤ c * |g ⬝ᵥ v| := by
        simpa [Leaves, Event.call, Query.call, hg, hg'] using hstep
      have hmemory : t.1.strategy.memory = some ⟨lift v, lift g, step.alpha⟩ := by
        rw [← congrArg (fun r => r.2.1.strategy) ht, Descent.serve, hd, hg, hg']
        simp [Descent.ask, strategy, record, Act.perform_bind]
      rintro last hlast
      rw [hmemory] at hlast
      cases hlast
      refine ⟨g, v, rfl, rfl, ?_⟩
      calc |g' ⬝ᵥ v| * (1 - c) ≤ c * |g ⬝ᵥ v| * (1 - c) :=
            mul_le_mul_of_nonneg_right hleft (by linarith)
        _ = c * (|g ⬝ᵥ v| * (1 - c)) := mul_assoc _ _ _
        _ ≤ c * (g ⬝ᵥ g) := mul_le_mul_of_nonneg_left (hrange.abs_le hc hhalf) hc.le

/-- The events of a run, from its start on: the invariant at their end, and the directions among
them. -/
theorem Keeps.along (hc : 0 < c) (hhalf : c ≤ 1 / 2)
    (hd : d.strategy = strategy ⟨.fletcherReeves, interval⟩)
    {begun t : Flow (State (Exact K) (Vector (Exact K) n)) ρ (Exact K) (Vector (Exact K) n) ×
      Ledger (Exact K) (Vector (Exact K) n)} {events : List (Event (Exact K) (Vector (Exact K) n))}
    (hp : Keeps c p begun.1.strategy) (h : d.Transcript o begun events t) (hobeys : p.Obeys events)
    (hsteps : ∀ e ∈ events, Leaves c e.call) :
    Keeps c (p.along events) t.1.strategy ∧ ∀ y direction, ⟨.compute y, .ok direction⟩ ∈ events →
      ∃ g v, y.gradient = lift g ∧ direction = lift v ∧ SlopeRange c g v := by
  induction h with
  | begin => exact ⟨hp, nofun⟩
  | remark h r ih => exact ih hobeys hsteps
  | accept h y ih => exact ih hobeys hsteps
  | @call events f l h e t ht ih =>
    rw [Phase.obeys_append] at hobeys
    rw [List.forall_mem_append, List.forall_mem_singleton] at hsteps
    obtain ⟨hkept, hranges⟩ := ih hobeys.1 hsteps.1
    have hdue := Phase.due_of_eq_some hobeys.2.1
    have hnext : Keeps c ((p.along events).answered e) t.1.strategy :=
      hkept.answered (f := { f with calls := f.calls.push e.call }) hc hhalf hd hdue hsteps.2 ht
    refine ⟨by rw [Phase.along_append]; exact hnext, fun y direction he => ?_⟩
    obtain he | he := List.mem_append.mp he
    · exact hranges y direction he
    · obtain rfl := List.mem_singleton.mp he
      generalize p.along events = p' at hdue hnext
      cases hdue
      exact hnext

/-- The change of the gradient that is reported leads back to the gradient before the step. -/
theorem sub_reported (h : p.Sound) {s y gradient direction : Vector (Exact K) n} {alpha : Exact K}
    (hdue : Phase.Due p (.update s y gradient alpha direction)) :
    gradient - y = p.iterate.gradient := by
  cases hdue with
  | @update x direction again step hok hfin =>
    simp only [Descent.finiteStep, Bool.and_eq_true] at hfin
    obtain ⟨g, hg⟩ := exists_lift h.1
    obtain ⟨g', hg'⟩ := exists_lift hfin.2
    rw [Phase.iterate, hg, hg', lift_sub, lift_sub, sub_sub_cancel]

/-- Every run with the rule of Fletcher and Reeves, for any problem, any interval between restarts,
any search and config, whose reported steps leave at most the share `c` of the slope along their
direction. Every direction that the strategy answers has its slope in the range that belongs to `c`,
after restarts and after resets as well; and where `c` is below one half, no answer is a restart
because the direction would not descend. -/
theorem run_slope_range [Curved (Exact K) (Vector (Exact K) n) M] (hc : 0 < c) (hhalf : c ≤ 1 / 2)
    (hd : d.strategy = strategy ⟨.fletcherReeves, interval⟩) {x : Vector (Exact K) n}
    {start : Iterate (Exact K) (Vector (Exact K) n)} (hstart : d.opened x = .ok (.inl start))
    (state : State (Exact K) (Vector (Exact K) n)) (search : ρ)
    (hsteps : ∀ call ∈ (d.run x state search).flow.calls.toList, Leaves c call) :
    ∃ events ledger,
      d.Converses x start state search events (d.run x state search).flow ledger ∧
      (∀ before rest s y gradient alpha direction r,
        events = before ++ ⟨.update s y gradient alpha direction, r⟩ :: rest →
        gradient - y = ((Phase.ready start).along before).iterate.gradient) ∧
      (∀ y direction, ⟨.compute y, .ok direction⟩ ∈ events → ∃ g v : Fin n → K,
        y.gradient = lift g ∧ direction = lift v ∧
        -(g ⬝ᵥ g) / (1 - c) ≤ g ⬝ᵥ v ∧ g ⬝ᵥ v ≤ -((1 - 2 * c) / (1 - c)) * (g ⬝ᵥ g)) ∧
      (c < 1 / 2 → ∀ before rest y r, events = before ++ ⟨.compute y, r⟩ :: rest →
        ∃ flow l u, d.Converses x start state search before flow l ∧
          (d.strategy.compute (d.work (Space.size x)) y).perform flow.strategy l = (r, u) ∧
          (u.2.remarks = l.remarks ∨ ∃ reason, reason ≠ .notDescending ∧
            u.2.remarks = l.remarks.push (.restarted reason))) := by
  obtain ⟨g, hg⟩ := exists_lift (Descent.opened_finite hstart).2.2.2
  obtain ⟨f, hfault, -⟩ | ⟨events, ledger, hconverses, -⟩ :=
    Descent.run_converses state search hstart
  · rw [hd] at hfault
    cases hfault
  obtain ⟨hobeys, prepared, hprepared, htranscript⟩ := hconverses
  have hbegun : Keeps c (.ready start) prepared := by
    rw [hd] at hprepared
    cases hprepared
    exact ⟨g, hg, nofun⟩
  have hleaves : ∀ e ∈ events, Leaves c e.call := by
    intro e he
    apply hsteps
    rw [htranscript.calls_eq]
    exact List.mem_append_right _ (List.mem_map_of_mem he)
  have hsound : (Phase.ready start).Sound := (Descent.opened_finite hstart).2.2.2
  refine ⟨events, ledger, ⟨hobeys, prepared, hprepared, htranscript⟩, ?_, ?_, ?_⟩
  · rintro before rest s y gradient alpha direction r rfl
    rw [Phase.obeys_append] at hobeys
    exact sub_reported (hsound.along hobeys.1) (Phase.due_of_eq_some hobeys.2.1)
  · intro y direction he
    obtain ⟨g, v, hg, hv, hrange⟩ :=
      (Keeps.along hc hhalf hd hbegun htranscript hobeys hleaves).2 y direction he
    exact ⟨g, v, hg, hv, hrange.steepest, hrange.flattest⟩
  · rintro hsharp before rest y r rfl
    obtain ⟨flow, l, u, hbefore, hserve⟩ := htranscript.exists_before rfl
    rw [Phase.obeys_append] at hobeys
    have hkept := (Keeps.along hc hhalf hd hbegun hbefore hobeys.1
      fun e he => hleaves e (List.mem_append_left _ he)).1
    have hdue := Phase.due_of_eq_some hobeys.2.1
    have hcompute : (d.strategy.compute (d.work (Space.size x)) y).perform flow.strategy l =
        (r, u.1.strategy, u.2) :=
      congrArg (fun t => (t.1, t.2.1.strategy, t.2.2)) hserve
    refine ⟨flow, l, (u.1.strategy, u.2), ⟨hobeys.1, prepared, hprepared, hbefore⟩, hcompute, ?_⟩
    obtain ⟨g, hg, hproposes⟩ := hkept.proposes hc hhalf hdue (d.work (Space.size x)) l
    rw [← hd, hcompute] at hproposes
    exact hproposes.remarks.imp_right fun ⟨reason, hpush, hreason⟩ =>
      ⟨reason, hreason hsharp, hpush⟩

/-- Two steps that minimize along their directions, the second one along steepest descent after a
search that failed; the third direction turns again. -/
theorem run_slope_range_bowl :
    let d : Descent (State (Exact ℚ) (Vector (Exact ℚ) 2)) ℕ (Exact ℚ) (Vector (Exact ℚ) 2)
        (Matrix (Exact ℚ) 2) :=
      ⟨LineSearch.bowl, strategy ⟨.fletcherReeves, none⟩,
        Script.search [
          ⟨number (5 / 14), ⟨lift ![19 / 14, 5 / 7], 0, lift ![3 / 7, -3 / 14]⟩, true, ""⟩,
          ⟨0, ⟨lift ![19 / 14, 5 / 7], 0, lift ![3 / 7, -3 / 14]⟩, false, ""⟩,
          ⟨number (5 / 6), ⟨lift ![1, 25 / 28], 0, lift ![-3 / 28, -3 / 14]⟩, true, ""⟩,
          ⟨0, ⟨lift ![1, 25 / 28], 0, lift ![-3 / 28, -3 / 14]⟩, false, ""⟩], .standard⟩
    let state := fresh ⟨.fletcherReeves, none⟩
    let flow := (d.run #v[1, 0] state 0).flow
    let start : Iterate (Exact ℚ) (Vector (Exact ℚ) 2) := ⟨#v[1, 0], -2, #v[-1, -2]⟩
    flow.calls.toList.count .compute = 3 ∧ flow.calls.toList.count .reset = 2 ∧
      .initialStep (lift ![-3 / 28, -3 / 14]) (lift ![0, 15 / 56]) ∈ flow.calls.toList ∧
      ∃ events ledger, d.Converses #v[1, 0] start state 0 events flow ledger ∧
        ∀ y direction, ⟨.compute y, .ok direction⟩ ∈ events → ∃ g v : Fin 2 → ℚ,
          y.gradient = lift g ∧ direction = lift v ∧ -(g ⬝ᵥ g) / (1 - 1 / 4) ≤ g ⬝ᵥ v ∧
          g ⬝ᵥ v ≤ -((1 - 2 * (1 / 4)) / (1 - 1 / 4)) * (g ⬝ᵥ g) := by
  intro d state flow start
  have hstart : d.opened #v[1, 0] = .ok (.inl start) := by decide +kernel
  have hsteps : ∀ call ∈ flow.calls.toList, Leaves (1 / 4) call := by decide +kernel
  obtain ⟨events, ledger, hconverses, -, hrange, -⟩ := run_slope_range (by norm_num) (by norm_num)
    rfl hstart state 0 hsteps
  exact ⟨by decide +kernel, by decide +kernel, by decide +kernel, events, ledger, hconverses,
    hrange⟩

end ConjugateGradient

end Downhill
