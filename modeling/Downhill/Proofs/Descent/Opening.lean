import Downhill.Descent.Run
import Downhill.Proofs.Problem.Quiet
import Downhill.Proofs.Replies

/-! How a run begins. Its start is evaluated, and the run stops there or hands the start to the
strategy; what it does afterwards is the run of its iterations from an open start. -/
namespace Downhill.Descent
variable {σ ρ α V M : Type} [Scalar α] [Space α V] {x : V} {start : Iterate α V}

theorem yields_open (o : Oracle α V M) (x : V) :
    Yields (openAt o x) fun r => ∀ start, r = .inl start →
      start.point = x ∧ Space.finite x = true ∧ Scalar.isFinite start.value = true ∧
        Space.finite start.gradient = true := by
  refine .ite (fun hx => .bind .any fun f _ => .bind .any fun g _ => ?_) fun _ => .pure nofun
  refine .ite (fun hfin => .pure ?_) fun _ => .pure nofun
  rintro _ ⟨⟩
  rw [Bool.and_eq_true] at hfin
  exact ⟨rfl, hx, hfin⟩

/-- What is evaluated at a finite start belongs to it, also where it is not finite. -/
theorem yields_faithful {o : Oracle α V M} (ho : o.Quiet) (hx : Space.finite x = true) :
    Yields (openAt o.recorded x) (Sum.elim (fun start => start.point = x ∧ o.Faithful start)
      fun stop => stop.final.point = x ∧ o.Faithful stop.final) := by
  refine .ite (fun _ => ?_) fun hno => absurd hx hno
  refine .bind (ho.yields_value x) fun f hf => .bind (ho.yields_gradient x) fun g hg => ?_
  exact .ite (fun _ => .pure ⟨rfl, hf, hg⟩) fun _ => .pure ⟨rfl, hf, hg⟩

@[simp] theorem flow_close (d : Descent σ ρ α V M) (x : V) (r : Except (Fault α) (Stop α V))
    (f : Flow σ ρ α V) (l : Ledger α V) : (d.close x r f l).flow = f := by
  cases r <;> rfl

variable [Curved α V M] {d : Descent σ ρ α V M} (state : σ) (search : ρ)

/-- The start of a run, if everything is finite there. -/
def opened (d : Descent σ ρ α V M) (x : V) : Except (Fault α) (Iterate α V ⊕ Stop α V) :=
  (openAt (d.work (Space.size x)) x).start.1

/-- Everything is finite at an open start. -/
theorem opened_finite (h : d.opened x = .ok (.inl start)) : start.point = x ∧
    Space.finite x = true ∧ Scalar.isFinite start.value = true ∧
      Space.finite start.gradient = true := by
  have hopen := yields_open (d.work (Space.size x)) x {} trivial
  have hrun : ((openAt (d.work (Space.size x)) x).run.run {}).1 = .ok (.inl start) := h
  rw [hrun] at hopen
  exact hopen start rfl

/-- A finite start comes with what the problem says there. -/
theorem opened_faithful {r : Iterate α V ⊕ Stop α V} (hx : Space.finite x = true)
    (h : d.opened x = .ok r) :
    let o := d.problem.differentiable (Space.size x) d.strategy.needsHessian
    Sum.elim (fun start => start.point = x ∧ o.Faithful start)
      (fun stop => stop.final.point = x ∧ o.Faithful stop.final) r := by
  have ho := d.problem.quiet_differentiable (Space.size x) d.strategy.needsHessian
  have hopen := yields_faithful ho hx {} trivial
  have hrun : ((openAt (d.problem.differentiable (Space.size x)
      d.strategy.needsHessian).recorded x).run.run {}).1 = .ok r := h
  rw [hrun] at hopen
  exact hopen

theorem exists_ledger {r : Except (Fault α) (Iterate α V ⊕ Stop α V)} (h : d.opened x = r) :
    ∃ l, (openAt (d.work (Space.size x)) x).start = (r, l) :=
  ⟨_, Prod.ext h rfl⟩

theorem run_of_fault {f : Fault α} (h : d.opened x = .error f) :
    (d.run x state search).result = .error f := by
  obtain ⟨l, hopen⟩ := exists_ledger h
  simp only [run, hopen]
  rfl

theorem run_of_stop {stop : Stop α V} (h : d.opened x = .ok (.inr stop)) :
    ∃ l, d.run x state search = d.close x (.ok stop) (.start state search #[]) l := by
  obtain ⟨l, hopen⟩ := exists_ledger h
  exact ⟨l, by simp only [run, hopen]⟩

/-- A run from a finite start goes on to its iterations unless the strategy refuses to begin. -/
theorem run_of_opened (h : d.opened x = .ok (.inl start)) :
    let o := d.work (Space.size x)
    (∃ f l, d.strategy.prepare o start state = .error f ∧
      d.run x state search = d.close x (.error f) (.start state search #[.prepare]) l) ∨
    ∃ prepared r t, d.strategy.prepare o start state = .ok prepared ∧
      (d.pursue o start).run.run (.start prepared search #[.prepare], (openAt o x).start.2) =
        (r, t) ∧
      d.run x state search = d.close x r t.1 t.2 := by
  intro o
  obtain ⟨l, hopen⟩ := exists_ledger h
  cases hprepare : d.strategy.prepare o start state with
  | error f =>
    refine .inl ⟨f, l, rfl, ?_⟩
    simp only [run, hopen, hprepare, o]
  | ok prepared =>
    rcases hpursue : (d.pursue o start).perform (.start prepared search #[.prepare]) l with ⟨r, t⟩
    refine .inr ⟨prepared, r, t, rfl, by rw [hopen]; exact hpursue, ?_⟩
    simp only [run, hopen, hprepare, hpursue, o]

/-- What becomes of a run whose iterations surely come to a stop. -/
theorem exists_run_of_surely {prepared : σ} {P : Flow σ ρ α V × Ledger α V → Prop}
    {Q : Stop α V → Flow σ ρ α V × Ledger α V → Prop} (hopen : d.opened x = .ok (.inl start))
    (hprepare : d.strategy.prepare (d.work (Space.size x)) start state = .ok prepared)
    (hP : ∀ l, P (.start prepared search #[.prepare], l))
    (hpursue : Ensures P (d.pursue (d.work (Space.size x)) start) (Surely Q)) :
    ∃ stop t, d.run x state search = d.close x (.ok stop) t.1 t.2 ∧ Q stop t := by
  obtain ⟨_, _, hrefused, -⟩ | ⟨_, r, t, hready, hstop, hrun⟩ := run_of_opened state search hopen
  · cases hprepare.symm.trans hrefused
  obtain rfl := Except.ok.inj (hprepare.symm.trans hready)
  have hQ := hpursue _ (hP (openAt (d.work (Space.size x)) x).start.2)
  rw [hstop] at hQ
  cases r with
  | error f => exact hQ.elim
  | ok stop => exact ⟨stop, t, hrun, hQ⟩

/-- A run closes the account that its opening left, or the one that its iterations left. -/
theorem exists_close (d : Descent σ ρ α V M) (x : V) (state : σ) (search : ρ) :
    let o := d.work (Space.size x)
    let l := (openAt o x).start.2
    ∃ r t, d.run x state search = d.close x r t.1 t.2 ∧
      (t.2 = l ∧ (∀ start prepared, d.opened x = .ok (.inl start) →
        d.strategy.prepare o start state ≠ .ok prepared) ∨
      ∃ start prepared, d.opened x = .ok (.inl start) ∧
        d.strategy.prepare o start state = .ok prepared ∧
        (d.pursue o start).run.run (.start prepared search #[.prepare], l) = (r, t)) := by
  intro o l
  rcases hopen : (openAt o x).start with ⟨f | start | stop, l'⟩
  · refine ⟨.error f, (.start state search #[], l'), by simp only [run, o, hopen], .inl ⟨?_, ?_⟩⟩
    · simp only [l, hopen]
    · intro start prepared hstart
      cases (congrArg Prod.fst hopen).symm.trans hstart
  · cases hprepare : d.strategy.prepare o start state with
    | error f =>
      refine ⟨.error f, (.start state search #[.prepare], l'), ?_, .inl ⟨?_, ?_⟩⟩
      · simp only [run, o, hopen, hprepare]
      · simp only [l, hopen]
      · intro start' prepared hstart hready
        obtain rfl := Sum.inl.inj (Except.ok.inj ((congrArg Prod.fst hopen).symm.trans hstart))
        cases hprepare.symm.trans hready
    | ok prepared =>
      rcases hpursue : (d.pursue o start).perform (.start prepared search #[.prepare]) l'
        with ⟨r, t⟩
      refine ⟨r, t, by simp only [run, o, hopen, hprepare, hpursue], .inr ⟨start, prepared, ?_⟩⟩
      simp only [l, hopen]
      exact ⟨congrArg Prod.fst hopen, hprepare, hpursue⟩
  · refine ⟨.ok stop, (.start state search #[], l'), by simp only [run, o, hopen], .inl ⟨?_, ?_⟩⟩
    · simp only [l, hopen]
    · intro start prepared hstart
      cases (congrArg Prod.fst hopen).symm.trans hstart

/-- Strategy and search are left alone, and no iterate is accepted. -/
theorem flow_run_of_not_opened (h : ∀ start, d.opened x ≠ .ok (.inl start)) :
    (d.run x state search).flow = .start state search #[] := by
  unfold opened at h
  rcases hopen : (openAt (d.work (Space.size x)) x).start with ⟨f | start | stop, l⟩
  · simp only [run, hopen, flow_close]
  · exact absurd (congrArg Prod.fst hopen) (h start)
  · simp only [run, hopen, flow_close]

theorem trace_run_of_not_opened (h : ∀ start, d.opened x ≠ .ok (.inl start)) :
    (d.run x state search).flow.trace = #[] :=
  congrArg Flow.trace (flow_run_of_not_opened state search h)

omit [Scalar α] [Curved α V M] in
/-- A point that fits the problem is left as it is. -/
theorem eq_of_accept {p : Problem α V M} {y : V} (h : p.accept x = .ok y) : y = x := by
  unfold Problem.accept Space.accept at h
  split at h
  · exact (Except.ok.inj h).symm
  · split_ifs at h
    · exact (Except.ok.inj h).symm
    · cases h
  · cases h

theorem runFrom_of_fault {f : Fault α} (h : d.problem.accept x = .error f) :
    d.runFrom x state search = .error f := by
  unfold runFrom
  rw [h]
  rfl

theorem runFrom_eq_ok_iff {record : Record σ ρ α V} :
    d.runFrom x state search = .ok record ↔
      d.problem.accept x = .ok x ∧ record = d.run x state search := by
  unfold runFrom
  rcases h : d.problem.accept x with f | y
  · exact ⟨fun h => (by cases h), fun h => (by cases h.1)⟩
  · obtain rfl := eq_of_accept h
    exact ⟨fun h => ⟨rfl, (Except.ok.inj h).symm⟩, fun h => congrArg Except.ok h.2.symm⟩

end Downhill.Descent
