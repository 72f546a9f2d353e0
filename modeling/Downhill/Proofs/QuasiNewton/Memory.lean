import Downhill.Descent.Script
import Downhill.Proofs.Descent.Course
import Downhill.Problem.Quadratic
import Downhill.Proofs.QuasiNewton.Definite
import Downhill.Proofs.QuasiNewton.Queue

/-! The memory of limited-memory directions in the course of a run. The strategy hands its ring the
steps that it is told of and clears it at every reset, and it counts the pairs that the ring
refuses; nothing else that a run asks of it changes the ring or the count. -/
namespace Downhill
variable {α M ρ : Type} [Scalar α] {n m : ℕ}

namespace QuasiNewton
open History (Passes Queued)

section Calls
variable {V : Type}

/-- What a call of a run asks of the ring. -/
def ringCall? : Call α V → Option (History.Call V)
  | .update s y _ _ _ => some (.push s y)
  | .reset => some .clear
  | _ => none

/-- The call offers a pair that the threshold holds back. -/
def refused [Space α V] (threshold : α) : Call α V → Bool
  | .update s y _ _ _ => !decide (Passes threshold (Space.inner s y))
  | _ => false

/-- The strategy after some calls that found it with this ring. -/
def stateAfter [Space α V] (threshold : α) (ring : History α m V) (calls : List (Call α V)) :
    State α m V :=
  ⟨some (ring.calls (calls.filterMap ringCall?)), calls.countP (refused threshold)⟩

variable [Space α V] {threshold : α} {ring : History α m V} {calls : List (Call α V)} {c : Call α V}

theorem stateAfter_snoc_of_none (hring : ringCall? c = none) (hc : refused threshold c = false) :
    stateAfter threshold ring (calls ++ [c]) = stateAfter threshold ring calls := by
  simp [stateAfter, hring, hc]

theorem stateAfter_snoc_of_some {rc : History.Call V} (hring : ringCall? c = some rc) :
    stateAfter threshold ring (calls ++ [c]) =
      ⟨some ((ring.calls (calls.filterMap ringCall?)).call rc),
        calls.countP (refused threshold) + (refused threshold c).toNat⟩ := by
  cases hc : refused threshold c <;> simp [stateAfter, hring, hc, History.calls]

end Calls

variable {threshold : α} {h : History α m (Vector α n)} {cs : List (History.Call (Vector α n))}

/-- A pair is offered, and the strategy counts it if it is refused. -/
theorem state_learn [ZeroApart α] (h0 : 0 ≤ threshold) (hq : Queued h threshold cs) (k : ℕ)
    (a y : Vector α n) (l : Ledger α (Vector α n)) :
    ((learn a y).perform ⟨some h, k⟩ l).2.1 =
      ⟨some (h.call (.push a y)), k + (!decide (Passes threshold (dot a y))).toNat⟩ := by
  have hpush : h.push a y = (.ok (decide (Passes threshold (dot a y))), h.call (.push a y)) :=
    Prod.ext (hq.answer_push h0 a y) rfl
  have hcurrent : ∀ missing l,
      (current missing).perform ⟨some h, k⟩ l = (.ok h, ⟨some h, k⟩, l) := perform_current rfl
  simp only [learn, Act.perform_bind, hcurrent, hpush]
  by_cases hp : Passes threshold (dot a y) <;> simp [hp, Act.perform_bind]

section Run
variable [ZeroApart α] {m : ℤ} {ring : History α m.toNat (Vector α n)}
  {calls : List (Call α (Vector α n))}
  {d : Descent (State α m.toNat (Vector α n)) ρ α (Vector α n) M}

/-- How a call changes the strategy. -/
theorem strategy_serve (hd : d.strategy = strategy ⟨m, threshold⟩) (h0 : 0 ≤ threshold)
    (hring : ∀ cs, Queued (ring.calls cs) threshold cs) (o : Oracle α (Vector α n) M)
    (q : Query α (Vector α n)) {f : Flow (State α m.toNat (Vector α n)) ρ α (Vector α n)}
    (hf : f.strategy = stateAfter threshold ring calls) (l : Ledger α (Vector α n)) :
    ((d.serve o q).perform f l).2.1.strategy = stateAfter threshold ring (calls ++ [q.call]) := by
  have hhistory : f.strategy.history = some (ring.calls (calls.filterMap ringCall?)) := by
    rw [hf, stateAfter]
  cases q with
  | compute x =>
    rw [Query.call, stateAfter_snoc_of_none rfl rfl, ← hf]
    simp only [Descent.serve, Descent.ask, hd, Act.perform_within, strategy, Act.perform_bind,
      perform_current hhistory, Act.perform_ofExcept]
  | initialStep gradient direction =>
    rw [Query.call, stateAfter_snoc_of_none rfl rfl, ← hf]
    simp only [Descent.serve, Descent.ask, hd, Act.perform_within, strategy, Act.perform_bind,
      perform_current hhistory]
    split_ifs
    · cases cautiousStep gradient <;> rfl
    · rfl
  | search ray asked =>
    rw [Query.call, stateAfter_snoc_of_none rfl rfl, ← hf]
    rfl
  | update a y gradient alpha direction =>
    rw [Query.call, stateAfter_snoc_of_some rfl]
    simp only [Descent.serve, Descent.ask, hd, Act.perform_within, strategy]
    rw [hf]
    exact state_learn h0 (hring _) _ a y l
  | reset =>
    rw [Query.call, stateAfter_snoc_of_some rfl]
    simp only [Descent.serve, Descent.ask, hd, Act.perform_within, strategy, Act.perform_bind,
      Act.perform_modifyState, hf]
    rfl

/-- The strategy after some events is the one after their calls. -/
theorem strategy_transcript (hd : d.strategy = strategy ⟨m, threshold⟩) (h0 : 0 ≤ threshold)
    (hring : ∀ cs, Queued (ring.calls cs) threshold cs) {o : Oracle α (Vector α n) M}
    {begun t : Flow (State α m.toNat (Vector α n)) ρ α (Vector α n) × Ledger α (Vector α n)}
    {events : List (Event α (Vector α n))} (h : d.Transcript o begun events t)
    (hbegun : begun.1.strategy = stateAfter threshold ring begun.1.calls.toList) :
    t.1.strategy = stateAfter threshold ring t.1.calls.toList := by
  induction h with
  | begin => exact hbegun
  | remark h r ih => exact ih
  | accept h y ih => exact ih
  | @call events f l h e t ht ih =>
    have hcalls : t.1.calls.toList = f.calls.toList ++ [e.query.call] := by
      rw [← congrArg (fun r => r.2.1.calls) ht, Descent.calls_serve, Array.toList_push]
      rfl
    have hserve := strategy_serve hd h0 hring o e.query
      (f := { f with calls := f.calls.push e.call }) ih l
    rw [ht] at hserve
    rw [hserve, hcalls]

variable [Curved α (Vector α n) M]

/-- The strategy after a run is the one after the calls of the run. -/
theorem strategy_run (hd : d.strategy = strategy ⟨m, threshold⟩) (h0 : 0 ≤ threshold)
    (hmake : History.make m n threshold = .ok ring)
    (hring : ∀ cs, Queued (ring.calls cs) threshold cs) {x : Vector α n}
    {start : Iterate α (Vector α n)} (hstart : d.opened x = .ok (.inl start))
    (state : State α m.toNat (Vector α n)) (search : ρ) :
    let flow := (d.run x state search).flow
    flow.strategy = stateAfter threshold ring flow.calls.toList := by
  intro flow
  have hprepare : d.strategy.prepare (d.work (Space.size x)) start state =
      .ok ⟨some ring, 0⟩ := by
    have hbegin : begin ⟨m, threshold⟩ start.point = .ok ⟨some ring, 0⟩ := by
      rw [begin]
      exact congrArg (· >>= _) hmake
    rw [hd]
    exact hbegin
  obtain ⟨f, hfault, -, -⟩ | ⟨events, ledger, ⟨-, prepared, hprepared, htranscript⟩, -⟩ :=
    Descent.run_converses state search hstart
  · cases hprepare.symm.trans hfault
  · cases hprepare.symm.trans hprepared
    exact strategy_transcript hd h0 hring htranscript rfl

/-- The memory of limited-memory directions is a queue of bounded length, in any arithmetic in which
what lies above the threshold is not zero: after any offers and clearings it holds the last pairs
that were admitted since, oldest first and as they were offered, as many as it has room for. An
offer is answered by whether the product of the pair is finite and above the threshold; every slot
has the reciprocal of its own pair, and the scaling is that of the newest pair. In a run the memory
sees the steps that are reported and the resets, and the strategy has counted the pairs that were
refused since the run began. -/
theorem memory_eq_queue (hm : 1 ≤ m) (hn : 0 < n) (h0 : 0 ≤ threshold) :
    ∃ ring : History α m.toNat (Vector α n), History.make m n threshold = .ok ring ∧
      (∀ cs : List (History.Call (Vector α n)),
        let h := ring.calls cs
        let admitted := History.admittedSince threshold cs
        (∀ s y, (h.push s y).1 = .ok (decide (Passes threshold (dot s y)))) ∧
        h.pairs = (admitted.rtake m.toNat).map .ofChanges ∧
        h.size = min m.toNat admitted.length ∧ h.size ≤ m.toNat ∧
        (∀ i, History.Matched n (h.slots.get i)) ∧
        h.gamma = admitted.getLast?.elim 1 fun p => 1 / (1 / dot p.1 p.2 * dot p.2 p.2)) ∧
      ∀ (ρ : Type) (d : Descent (State α m.toNat (Vector α n)) ρ α (Vector α n) M)
        (x : Vector α n) (start : Iterate α (Vector α n)) (state : State α m.toNat (Vector α n))
        (search : ρ), d.strategy = strategy ⟨m, threshold⟩ → d.opened x = .ok (.inl start) →
        let flow := (d.run x state search).flow
        flow.strategy.history = some (ring.calls (flow.calls.toList.filterMap ringCall?)) ∧
        flow.strategy.skipped = flow.calls.toList.countP (refused threshold) := by
  have hroom : 0 < m.toNat := by omega
  have hmake := History.make_of_pos (V := Vector α n) hroom hn threshold
  have hring := Queued.calls (α := α) (n := n) h0 hroom
  refine ⟨_, hmake, fun cs => ?_, fun ρ d x start state search hd hstart => ?_⟩
  · have hq := hring cs
    exact ⟨hq.answer_push h0, hq.pairs_eq, hq.size_eq, History.size_le _, hq.matched, hq.gamma_eq⟩
  · have hrun := strategy_run hd h0 hmake hring hstart state search
    exact ⟨congrArg State.history hrun, congrArg State.skipped hrun⟩

end Run

/-- A ring of two pairs of doubles that was cleared, refused a pair and overwrote one; and a run
that reports three steps, the second of them with a negative product, and clears the memory before
the third, after a search that failed. -/
theorem memory_eq_queue_doubles :
    let ring : History Float 2 (Vector Float 2) := .empty 2 0 two_pos
    let cs : List (History.Call (Vector Float 2)) :=
      [.push #v[1, 0] #v[2, 1], .clear, .push #v[0, 1] #v[1, 2], .push #v[1, 0] #v[-1, 0],
        .push #v[1, 1] #v[3, 3], .push #v[2, 0] #v[4, 1]]
    let d : Descent (State Float 2 (Vector Float 2)) ℕ Float (Vector Float 2) (Matrix Float 2) :=
      ⟨Quadratic.problem ⟨#v[#v[2, 1], #v[1, 2]], #v[3, 3]⟩, strategy ⟨2, 0⟩,
        Script.search [⟨1, ⟨#v[1, 0], -2, #v[-1, -2]⟩, true, ""⟩,
          ⟨1, ⟨#v[2, 0], -2, #v[-2, -2]⟩, true, ""⟩, ⟨0, ⟨#v[2, 0], -2, #v[-2, -2]⟩, false, ""⟩,
          ⟨1, ⟨#v[2, 1], -2, #v[2, 2]⟩, true, ""⟩],
        { Config.standard with maxIters := 3 }⟩
    let flow := (d.run #v[0, 0] fresh 0).flow
    (ring.calls cs).pairs = [.ofChanges (#v[1, 1], #v[3, 3]), .ofChanges (#v[2, 0], #v[4, 1])] ∧
      (ring.calls cs).gamma = 1 / (1 / 8 * 17) ∧ flow.strategy.skipped = 1 ∧
      flow.strategy.history.map History.pairs = some [.ofChanges (#v[0, 1], #v[4, 4])] := by
  intro ring cs d flow
  obtain ⟨ring', hmake, hcalls, hrun⟩ := memory_eq_queue (M := Matrix Float 2) (α := Float) (m := 2)
    (n := 2) (by decide) (by decide) (show (0 : Float) ≤ 0 by decide +kernel)
  obtain rfl : ring = ring' := Except.ok.inj hmake
  obtain ⟨-, hpairs, -, -, -, hgamma⟩ := hcalls cs
  have hstart : d.opened #v[0, 0] = .ok (.inl ⟨#v[0, 0], 0, #v[-3, -3]⟩) := by decide +kernel
  obtain ⟨-, hskipped⟩ := hrun ℕ d #v[0, 0] _ fresh 0 rfl hstart
  exact ⟨hpairs.trans (by decide +kernel), hgamma.trans (by decide +kernel),
    hskipped.trans (by decide +kernel), by decide +kernel⟩

end QuasiNewton

end Downhill
