import Downhill.Proofs.Descent.Verdicts

/-! What a cap on the iterations changes. The loop looks at its cap nowhere else, so a run with a
smaller cap is a beginning of the run with a larger one: it stops where the longer run passes
through, or it ends by itself and then the longer run ends in the same way. -/
namespace Downhill
variable {σ ρ α V M β τ ε : Type}

/-- A capped loop goes on where one with a smaller cap has stopped. -/
theorem upTo_add {f : Type → Type} [Monad f] [LawfulMonad f] (round : σ → f (σ ⊕ β))
    (a k : ℕ) (s : σ) : upTo round (a + k) s = (do
      match ← upTo round a s with
      | .inl s => upTo round k s
      | .inr b => pure (.inr b)) := by
  induction a generalizing s with
  | zero => rw [Nat.zero_add, upTo_zero, pure_bind]
  | succ a ih =>
    rw [Nat.succ_add, upTo_succ, upTo_succ round a, bind_assoc]
    congr
    funext r
    cases r with
    | inl s => exact ih s
    | inr b => simp only [pure_bind]

/-- Where a capped loop answers, the one with a smaller cap answers too: the longer loop went on
from what it left, or both ended with the same result. -/
theorem exists_of_upTo_add {round : σ → ExceptT ε (StateM τ) (σ ⊕ β)} {a k : ℕ} {s : σ} {t t₂ : τ}
    {r : σ ⊕ β} (h : (upTo round (a + k) s).run.run t = (.ok r, t₂)) :
    (∃ u t₁, (upTo round a s).run.run t = (.ok (.inl u), t₁) ∧
      (upTo round k u).run.run t₁ = (.ok r, t₂)) ∨
    ∃ b, r = .inr b ∧ (upTo round a s).run.run t = (.ok (.inr b), t₂) := by
  rw [upTo_add, run_run_bind] at h
  rcases hshort : (upTo round a s).run.run t with ⟨e | u | b, t₁⟩ <;> rw [hshort] at h
  · cases h
  · exact .inl ⟨u, t₁, rfl, h⟩
  · cases h
    exact .inr ⟨b, rfl, rfl⟩

/-- The descent with another cap on its iterations. -/
def Descent.capped (d : Descent σ ρ α V M) (cap : ℕ) : Descent σ ρ α V M :=
  { d with config := { d.config with maxIters := cap } }

variable [Scalar α] [Space α V]

/-- Where the iterations end: at a stop, or at the cap. -/
def Progress.settled : Progress α V ⊕ Stop α V → Stop α V
  | .inl t => t.stop .iterationCap .iterationCap
  | .inr stop => stop

namespace Descent
variable {d : Descent σ ρ α V M} {o : Oracle α V M} {start : Iterate α V} {cap : ℕ}
  {t t' : Flow σ ρ α V × Ledger α V} {stop : Stop α V}

/-- The iterations come to a stop at once, or after some rounds that were not hindered. -/
theorem pursue_eq_ok_iff : ((d.capped cap).pursue o start).run.run t = (.ok stop, t') ↔
    (d.verdict start start = .ok true ∧ stop = ⟨.converged, .toleranceMet, 0, start⟩ ∧ t' = t) ∨
    (d.verdict start start = .ok false ∧ ∃ r, stop = Progress.settled r ∧
      (upTo (d.iterate o) cap ⟨start, 0⟩).run.run t = (.ok r, t')) := by
  have hconverged : (d.capped cap).converged start start =
      Act.ofExcept (d.verdict start start) := rfl
  rw [pursue, hconverged]
  rcases d.verdict start start with f | _ | _
  · exact ⟨by rintro ⟨⟩, by rintro (⟨⟨⟩, -⟩ | ⟨⟨⟩, -⟩)⟩
  · change ((upTo (d.iterate o) cap ⟨start, 0⟩ >>= _).run.run t = _) ↔ _
    rw [run_run_bind]
    rcases (upTo (d.iterate o) cap ⟨start, 0⟩).run.run t with ⟨e | u | b, t₁⟩
    · exact ⟨by rintro ⟨⟩, by rintro (⟨⟨⟩, -⟩ | ⟨-, r, -, ⟨⟩⟩)⟩
    · refine ⟨?_, by rintro (⟨⟨⟩, -⟩ | ⟨-, r, rfl, ⟨⟩⟩); rfl⟩
      rintro ⟨⟩
      exact .inr ⟨rfl, _, rfl, rfl⟩
    · refine ⟨?_, by rintro (⟨⟨⟩, -⟩ | ⟨-, r, rfl, ⟨⟩⟩); rfl⟩
      rintro ⟨⟩
      exact .inr ⟨rfl, _, rfl, rfl⟩
  · refine ⟨?_, by rintro (⟨-, rfl, rfl⟩ | ⟨⟨⟩, -⟩); rfl⟩
    rintro ⟨⟩
    exact .inl ⟨rfl, rfl, rfl⟩

end Descent

namespace Scene
variable {s : Scene σ ρ α V M} {p : List (Iterate α V)} {t : Flow σ ρ α V × Ledger α V}

theorem Stands.trace {q : Phase α V} {met path : List (Iterate α V)}
    (h : s.Stands q met path t) : t.1.trace.toList = path := by
  obtain ⟨events, h⟩ := h
  exact h.trace

/-- The run stands at an iterate, and the iterates that it has noted begin with `p`. -/
def Extends (s : Scene σ ρ α V M) (p : List (Iterate α V)) (u : Progress α V)
    (t : Flow σ ρ α V × Ledger α V) : Prop :=
  ∃ path, p <+: path ∧ s.Noted (.ready u.current) path t

theorem ensures_extend (u : Progress α V) :
    Ensures (s.Extends p u) (s.descent.iterate s.oracle u)
      (Rounded (s.Extends p) (fun _ t => p <+: t.1.trace.toList) fun _ _ => True) := by
  rintro t ⟨path, hpath, ht⟩
  refine (?_ : Ensures (s.Noted (.ready u.current) path) _ _) t ht
  refine .mono (ensures_iterate u) (fun _ h => h) fun r t ht => ?_
  rcases r with f | next | stop
  · trivial
  · exact ⟨_, hpath.trans (List.prefix_append ..), ht.2.2⟩
  · have hgoal : p <+: t.1.trace.toList := by
      obtain ⟨y, -, -, ht⟩ | ⟨q, status, message, -, -, -, ht⟩ := ht
      · exact ht.trace ▸ hpath.trans (List.prefix_append ..)
      · exact ht.trace ▸ hpath
    exact hgoal

/-- Iterates that are noted stay at the head of the trace. -/
theorem extend_upTo {u : Progress α V} (h : s.Noted (.ready u.current) p t) (cap : ℕ) :
    Ensures (· = t) (upTo (s.descent.iterate s.oracle) cap u)
      (Rounded (s.Extends p) (fun _ t => p <+: t.1.trace.toList) fun _ _ => True) :=
  .mono (.upTo ensures_extend cap u) (fun _ ht => ht ▸ ⟨p, List.prefix_rfl, h⟩) fun _ _ h => h

/-- Where the longer iterations come to a stop, the shorter ones do, and what they have noted is a
beginning. They end alike unless the shorter ones are stopped by their cap. -/
theorem pursue_capped (h : s.Noted (.ready s.start) [] t) {a b : ℕ} (hab : a ≤ b)
    {stop : Stop α V} {t₂ : Flow σ ρ α V × Ledger α V}
    (hlong : ((s.descent.capped b).pursue s.oracle s.start).run.run t = (.ok stop, t₂)) :
    ∃ stop' t₁, ((s.descent.capped a).pursue s.oracle s.start).run.run t = (.ok stop', t₁) ∧
      t₁.1.trace.toList <+: t₂.1.trace.toList ∧
      (stop'.status ≠ .iterationCap → stop' = stop ∧ t₁ = t₂) := by
  obtain ⟨k, rfl⟩ := Nat.exists_eq_add_of_le hab
  obtain hmet | ⟨hunmet, r, rfl, hloop⟩ := Descent.pursue_eq_ok_iff.mp hlong
  · exact ⟨stop, t₂, Descent.pursue_eq_ok_iff.mpr (.inl hmet), List.prefix_rfl,
      fun _ => ⟨rfl, rfl⟩⟩
  obtain ⟨u, t₁, hshort, hrest⟩ | ⟨stop, rfl, hshort⟩ := exists_of_upTo_add hloop
  · refine ⟨_, t₁, Descent.pursue_eq_ok_iff.mpr (.inr ⟨hunmet, _, rfl, hshort⟩), ?_,
      fun hcap => absurd rfl hcap⟩
    -- What is noted where the shorter run stops is where the rest of the longer one begins.
    have hnoted : s.Extends [] u t₁ := by
      have hkept := extend_upTo (u := ⟨s.start, 0⟩) h a t rfl
      rwa [hshort] at hkept
    obtain ⟨path, -, hnoted⟩ := hnoted
    have hkept := extend_upTo hnoted k t₁ rfl
    rw [hrest] at hkept
    rw [hnoted.trace]
    cases r with
    | inl v =>
      obtain ⟨longer, hprefix, hlonger⟩ := hkept
      exact hlonger.trace ▸ hprefix
    | inr stop => exact hkept
  · exact ⟨_, t₂, Descent.pursue_eq_ok_iff.mpr (.inr ⟨hunmet, _, rfl, hshort⟩), List.prefix_rfl,
      fun _ => ⟨rfl, rfl⟩⟩

end Scene

/-- The last element of a beginning, where it stands in the whole list. -/
theorem getElem?_of_prefix {l l' : List β} (h : l <+: l') (b : β) :
    (b :: l')[l.length]? = some (l.getLastD b) := by
  obtain ⟨rest, rfl⟩ := h
  rcases List.eq_nil_or_concat l with rfl | ⟨l, c, rfl⟩
  · rfl
  · simp

namespace Descent
variable {d : Descent σ ρ α V M} {x : V}

/-- A run that its cap stops has taken as many steps as the cap allows, and ends at the last. -/
theorem Ending.eq_of_capped {start : Iterate α V} {path : List (Iterate α V)} {p : Phase α V}
    {stop : Stop α V} (h : d.Ending start path p stop) (hcap : stop.status = .iterationCap) :
    path.length = d.config.maxIters ∧
      stop = ⟨.iterationCap, .iterationCap, path.length, p.iterate⟩ := by
  cases h with
  | converged => cases hcap
  | capped _ hlength => exact ⟨hlength, rfl⟩
  | closed _ _ hclosing =>
    rcases Phase.status_of_closing hclosing with rfl | rfl <;> cases hcap

/-- A start that ends a run is one at which something is not finite. -/
theorem yields_open_stop (o : Oracle α V M) (x : V) :
    Yields (openAt o x) fun r => ∀ stop, r = .inr stop → stop.status = .numericalError := by
  refine .ite (fun _ => .bind .any fun f _ => .bind .any fun g _ => ?_) fun _ => .pure ?_
  · refine .ite (fun _ => .pure ?_) fun _ => .pure ?_
    · rintro _ ⟨⟩
    · rintro _ ⟨⟩
      rfl
  · rintro _ ⟨⟩
    rfl

theorem history_prefix {trace trace' : Array (Iterate α V)} (h : trace'.toList <+: trace.toList)
    {a b : ℕ} {l l' : Ledger α V} {stop stop' : Stop α V} :
    ((d.capped a).outcome x trace' l' stop').history <+:
      ((d.capped b).outcome x trace l stop).history := by
  change (if d.config.history then _ else _) <+: (if d.config.history then _ else _)
  split_ifs
  · exact List.cons_prefix_cons.mpr ⟨rfl, h.map _⟩
  · exact List.prefix_rfl

variable [Curved α V M] (state : σ) (search : ρ)

/-- A run whose start is not open does not depend on its cap, and is not stopped by it. -/
theorem run_capped_of_stop {stop : Stop α V} (h : d.opened x = .ok (.inr stop)) :
    ∃ record outcome, record.result = .ok outcome ∧ outcome.status = .numericalError ∧
      ∀ cap, (d.capped cap).run x state search = record := by
  obtain ⟨l, hopen⟩ := exists_ledger h
  have hstatus := yields_open_stop (d.work (Space.size x)) x {} trivial
  rw [show ((openAt (d.work (Space.size x)) x).run.run {}).1 = .ok (.inr stop) from h] at hstatus
  refine ⟨d.close x (.ok stop) (.start state search #[]) l, _, rfl, hstatus stop rfl, fun cap => ?_⟩
  rw [run, show (d.capped cap).work (Space.size x) = d.work (Space.size x) from rfl, hopen]
  rfl

/-- Where the longer of two runs from an open start returns an outcome, the iterations of both come
to a stop. They are stopped alike, unless the shorter ones are stopped by their cap, at the iterate
at which the longer run was after so many steps. -/
theorem exists_stops {start : Iterate α V} (hopen : d.opened x = .ok (.inl start)) {a b : ℕ}
    (hab : a ≤ b) {outcome : Outcome α V}
    (hout : ((d.capped b).run x state search).result = .ok outcome) :
    ∃ (stop stop' : Stop α V) (t t' : Flow σ ρ α V × Ledger α V),
      (d.capped b).run x state search = (d.capped b).close x (.ok stop) t.1 t.2 ∧
      (d.capped a).run x state search = (d.capped a).close x (.ok stop') t'.1 t'.2 ∧
      t'.1.trace.toList <+: t.1.trace.toList ∧
      (stop'.status ≠ .iterationCap → stop' = stop ∧ t' = t) ∧
      (stop'.status = .iterationCap → ∃ y, stop' = ⟨.iterationCap, .iterationCap, a, y⟩ ∧
        (start :: t.1.trace.toList)[a]? = some y) := by
  obtain ⟨f, l, -, hrun⟩ | ⟨prepared, r, t, hready, hpursue, hrun⟩ :=
    run_of_opened (d := d.capped b) state search hopen
  · rw [hrun] at hout
    cases hout
  cases r with
  | error f =>
    rw [hrun] at hout
    cases hout
  | ok stop =>
    let s : Scene σ ρ α V M := ⟨d.capped a, d.work (Space.size x),
      (.start prepared search #[.prepare], (openAt (d.work (Space.size x)) x).start.2), start⟩
    have hbegun : s.Noted (.ready start) [] s.begun := ⟨[], .begin, trivial, rfl, rfl, rfl⟩
    obtain ⟨stop', t', hpursue', hprefix, hsame⟩ :=
      Scene.pursue_capped (s := s) hbegun hab hpursue
    obtain ⟨f, l, hrefused, -⟩ | ⟨prepared', r', u, hready', hpursue'', hrun'⟩ :=
      run_of_opened (d := d.capped a) state search hopen
    · cases hready.symm.trans hrefused
    obtain rfl := Except.ok.inj (hready.symm.trans hready')
    obtain ⟨rfl, rfl⟩ := Prod.mk.inj (hpursue'.symm.trans hpursue'')
    refine ⟨stop, stop', t, t', hrun, hrun', hprefix, hsame, fun hcap => ?_⟩
    have hover : s.Over _ _ := Scene.ensures_pursue s.begun hbegun
    rw [show (s.descent.pursue s.oracle s.start).run.run s.begun = (.ok stop', t')
      from hpursue'] at hover
    obtain ⟨p, path, hending, hnoted⟩ := hover
    obtain ⟨hlength, rfl⟩ := hending.eq_of_capped hcap
    have ha : path.length = a := hlength
    rw [hnoted.trace] at hprefix
    have hlast := getElem?_of_prefix hprefix start
    rw [ha, ← hnoted.iterate] at hlast
    exact ⟨p.iterate, by rw [ha], hlast⟩

/-- The iterations of a run with a smaller cap are the first ones of the run with a larger cap.
Where the longer run returns an outcome the shorter one does, and its history and the iterates that
it noted are beginnings of those of the longer run. Unless its cap stops it, it leaves the record of
the longer run; where its cap stops it, it has taken as many steps as the cap allows, and ends at
the iterate at which the longer run was after so many steps. -/
theorem run_prefix (d : Descent σ ρ α V M) (x : V) (state : σ) (search : ρ) {a b : ℕ} (hab : a ≤ b)
    {long : Record σ ρ α V} {outcome : Outcome α V}
    (hlong : (d.capped b).runFrom x state search = .ok long) (hout : long.result = .ok outcome) :
    ∃ short outcome', (d.capped a).runFrom x state search = .ok short ∧
      short.result = .ok outcome' ∧
      outcome'.history <+: outcome.history ∧
      short.flow.trace.toList <+: long.flow.trace.toList ∧
      (outcome'.status ≠ .iterationCap → short = long) ∧
      (outcome'.status = .iterationCap → outcome'.iterations = a ∧
        ∃ start y, d.opened x = .ok (.inl start) ∧ start.point = x ∧
          (start :: long.flow.trace.toList)[a]? = some y ∧ outcome'.point = y.point ∧
          outcome'.value = y.value ∧ outcome'.gradientNorm = Space.norm y.gradient) := by
  obtain ⟨haccept, rfl⟩ := (runFrom_eq_ok_iff state search).mp hlong
  refine ⟨(d.capped a).run x state search, ?_⟩
  have hshort : (d.capped a).runFrom x state search = .ok ((d.capped a).run x state search) :=
    (runFrom_eq_ok_iff state search).mpr ⟨haccept, rfl⟩
  rcases hopen : d.opened x with f | start | stop
  · rw [run_of_fault (d := d.capped b) state search hopen] at hout
    cases hout
  · obtain ⟨stop, stop', t, t', hrun, hrun', hprefix, hsame, hcapped⟩ :=
      exists_stops state search hopen hab hout
    rw [hrun] at hout ⊢
    rw [hrun'] at hshort ⊢
    obtain rfl := Except.ok.inj hout
    refine ⟨_, hshort, rfl, history_prefix hprefix, ?_, fun hcap => ?_, fun hcap => ?_⟩
    · rwa [flow_close, flow_close]
    · obtain ⟨rfl, rfl⟩ := hsame hcap
      rfl
    · obtain ⟨y, rfl, hy⟩ := hcapped hcap
      exact ⟨rfl, start, y, rfl, (opened_finite hopen).1, hy, rfl, rfl, rfl⟩
  · obtain ⟨record, outcome', hresult, hstatus, hrun⟩ :=
      run_capped_of_stop state search hopen
    rw [hrun] at hout ⊢
    obtain rfl := Except.ok.inj (hresult.symm.trans hout)
    refine ⟨outcome', hrun a ▸ hshort, hresult, List.prefix_rfl, ?_, fun _ => ?_, fun h => ?_⟩
    · rw [hrun b]
    · rw [hrun b]
    · cases hstatus.symm.trans h

/-- A cap of one stops the run at `(3, 0)`, through which the run with a cap of two passes before it
comes to a value that is not finite. -/
theorem run_prefix_untaken :
    let d : Descent Script.Tally ℕ (Exact ℚ) (Vector (Exact ℚ) 2) (Matrix (Exact ℚ) 2) :=
      ⟨LineSearch.bowl, Script.Directions.strategy ⟨"steepest", false, [.steepest], [none]⟩,
        Script.search [⟨1, ⟨#v[3, 0], 0, #v[3, 0]⟩, true, ""⟩,
          ⟨1, ⟨#v[0, 0], .infinity true, #v[3, 0]⟩, true, ""⟩],
        { Config.standard with history := true }⟩
    ∃ long outcome short outcome', 1 ≤ 2 ∧ (d.capped 2).runFrom #v[0, 0] {} 0 = .ok long ∧
      long.result = .ok outcome ∧ outcome.status = .numericalError ∧ outcome.iterations = 2 ∧
      (d.capped 1).runFrom #v[0, 0] {} 0 = .ok short ∧ short.result = .ok outcome' ∧
      outcome'.status = .iterationCap ∧ outcome'.iterations = 1 ∧
      outcome'.history <+: outcome.history := by
  intro d
  have haccept : d.problem.accept #v[0, 0] = .ok #v[0, 0] := by decide +kernel
  have hlong : (d.capped 2).runFrom #v[0, 0] {} 0 = .ok ((d.capped 2).run #v[0, 0] {} 0) :=
    (runFrom_eq_ok_iff _ _).mpr ⟨haccept, rfl⟩
  have hout : ((d.capped 2).run #v[0, 0] {} 0).result = .ok ⟨#v[3, 0], 0,
      Space.norm (V := Vector (Exact ℚ) 2) #v[3, 0], 2, .numericalError, .stepNotFinite, ⟨1, 1, 0⟩,
      [#v[0, 0], #v[3, 0]]⟩ := by decide +kernel
  obtain ⟨short, outcome', hshort, hresult, hhistory, -, hsame, hcapped⟩ :=
    run_prefix d #v[0, 0] {} 0 (by decide : 1 ≤ 2) hlong hout
  have hstatus : outcome'.status = .iterationCap := by
    by_contra hcap
    have hstopped : ((d.capped 1).run #v[0, 0] {} 0).result ≠
      ((d.capped 2).run #v[0, 0] {} 0).result := by decide +kernel
    rw [(runFrom_eq_ok_iff _ _).mp hshort |>.2] at hsame
    exact hstopped (congrArg Record.result (hsame hcap))
  exact ⟨_, _, short, outcome', by decide, hlong, hout, rfl, rfl, hshort, hresult, hstatus,
    (hcapped hstatus).1, hhistory⟩

end Descent

end Downhill
