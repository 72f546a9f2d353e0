import Downhill.Proofs.Descent.Coherence
import Downhill.Proofs.LineSearch.Faults
import Downhill.Tensor.Space

/-! The extents of the points of a run. A run begins at a vector and is told gradients that are
vectors of the same length; a search of the library only goes along directions that have a scalar
product with such a gradient, which are again vectors of this length. So every point of the run has
the extents of the start. -/
namespace Downhill

namespace Tensor
variable {α : Type} [Scalar α] {n : ℕ} {t u : Tensor α}

theorem shape_add (h : u.shape = t.shape) : (t + u).shape = t.shape := by
  change (zipWith (· + ·) t u).shape = t.shape
  rw [zipWith_of_shape_eq _ h]

theorem shape_smul (a : α) (t : Tensor α) : (a * t).shape = t.shape := rfl

omit [Scalar α] in
/-- What has a scalar product with a vector is a vector of the same length. -/
theorem shape_of_dotCheck (ht : t.shape = [n]) (h : dotCheck t u = .ok ()) : u.shape = [n] := by
  rw [dotCheck, Shape.product?, ht, List.reverse_singleton] at h
  rcases hu : u.shape.reverse with _ | ⟨p, _ | ⟨m, rest⟩⟩ <;> simp only [hu] at h
  · cases h
  · split_ifs at h with hp
    · rw [List.reverse_eq_iff.mp hu, hp]
      rfl
    · cases h
  · split_ifs at h
    · rcases hs : ([].reverse ++ rest.reverse ++ [p] : Shape) with _ | ⟨k, more⟩
      · simp at hs
      · rw [hs] at h
        cases h
    · cases h

end Tensor

namespace Difference
variable {α V : Type} [Scalar α] [Space α V] {M : Type}

/-- Central differences come as a point with the extents of the one that is moved. -/
theorem yields_gradientAt (f : V → Eval α V α) (eps : α) (x : V) :
    Yields (gradientAt f eps x) fun g => ∃ c, g = Space.like x c := by
  refine .ite (fun _ => .throw _) fun _ => .ite (fun _ => ?_) fun _ => ?_
  · exact .bind .any fun _ _ => .throw _
  · exact .bind .any fun c _ => .pure ⟨c, rfl⟩

end Difference

namespace Problem
variable {α V M : Type} [Space α V] [Curved α V M] (p : Problem α V M) (n : ℕ)

theorem yields_counted_gradient (x : V) :
    Yields ((p.counted n).gradient x) fun g => Space.shape g = [n] := by
  refine .bind .any fun _ _ => .bind .any fun g _ => ?_
  exact .ite (fun hshape => .pure hshape) fun _ => .throw _

end Problem

namespace Descent
variable {σ α V M : Type} [Scalar α]

/-- The start of a run comes with the gradient that the oracle has there. -/
theorem yields_start [Space α V] {o : Oracle α V M} {x : V} {G : V → Prop}
    (h : Yields (o.gradient x) G) :
    Yields (openAt o x) (Sum.elim (fun start => start.point = x ∧ G start.gradient)
      fun stop => stop.final.point = x) := by
  refine .ite (fun _ => .bind .any fun f _ => .bind h fun g hg => ?_) fun _ => .pure rfl
  exact .ite (fun _ => .pure ⟨rfl, hg⟩) fun _ => .pure rfl

variable {n : ℕ}

/-- Point and gradient are vectors of length `n`. -/
def Extended (n : ℕ) (y : Iterate α (Tensor α)) : Prop :=
  y.point.shape = [n] ∧ y.gradient.shape = [n]

/-- At vectors of length `n` a run in dimension `n` hears gradients of the same length. -/
theorem yields_work_gradient (p : Problem α (Tensor α) (Tensor α)) (needsHessian : Bool)
    {x : Tensor α} (hx : x.shape = [n]) :
    Yields ((p.work n needsHessian).gradient x) fun g => g.shape = [n] := by
  have hdifference : Yields (Difference.gradientAt (p.counted n).value Difference.defaultStep x)
      fun g => g.shape = [n] := by
    refine (Difference.yields_gradientAt _ _ x).mono ?_
    rintro _ ⟨c, rfl⟩
    exact hx
  refine .bind .any fun _ _ => ?_
  unfold Oracle.differentiable
  split_ifs
  · exact p.yields_counted_gradient n x
  · change Yields ((if p.hasGradient then _ else _ : Tensor α → Eval α _ _) x) _
    split_ifs
    · exact p.yields_counted_gradient n x
    · exact hdifference

variable {d : Descent σ Unit α (Tensor α) (Tensor α)} {s : LineSearch α} {x : Tensor α}

theorem handsOn_extended (hd : d.search = s.machine) : d.HandsOn (d.work n) (Extended n) := by
  rintro r asked step ⟨hpoint, hgradient⟩ ⟨f, l, hstep⟩ hsuccess -
  have hsearch := search_of_serve hd hstep
  obtain ⟨a, hslope⟩ := LineSearch.exists_slope hsearch
  obtain ⟨b, hdot, -⟩ := bind_eq_ok_iff.mp hslope
  obtain ⟨⟨⟩, hcheck, -⟩ := bind_eq_ok_iff.mp hdot
  have hdirection : r.direction.shape = [n] := Tensor.shape_of_dotCheck hgradient hcheck
  have halong : ∀ a, (r.along a).shape = [n] := fun a =>
    (Tensor.shape_add ((Tensor.shape_smul a _).trans (hdirection.trans hpoint.symm))).trans hpoint
  have hears : r.Hears (d.work n) (fun _ _ => True) fun _ g => g.shape = [n] :=
    ⟨fun _ => .any, fun a => yields_work_gradient _ _ (halong a)⟩
  have htried := s.yields_tried hears asked l trivial
  rw [hsearch] at htried
  obtain ⟨a, hreached, -, hshape⟩ := htried hsuccess
  exact ⟨hreached ▸ halong a, hshape⟩

/-- A run with a search of the library ends at a point with the extents of its start. -/
theorem shape_of_run (hd : d.search = s.machine) (hx : x.shape = [x.entries.size]) (state : σ)
    {outcome : Outcome α (Tensor α)} (hout : (d.run x state ()).result = .ok outcome) :
    outcome.point.shape = x.shape := by
  have hopen := yields_start (o := d.work (Space.size x))
    (yields_work_gradient d.problem d.strategy.needsHessian hx) {} trivial
  rcases hstart : d.opened x with f | start | stop
  · rw [run_of_fault state () hstart] at hout
    cases hout
  · rw [show ((openAt (d.work (Space.size x)) x).run.run {}).1 = _ from hstart] at hopen
    obtain ⟨hpoint, hgradient⟩ := hopen
    obtain ⟨f, -, hfault, -⟩ | ⟨events, ledger, ⟨hobeys, prepared, -, htranscript⟩, hend⟩ :=
      run_converses state () hstart
    · cases hfault.symm.trans hout
    obtain ⟨stop, -, hending, rfl⟩ := hend outcome hout
    have hbears := (htranscript.bears (handsOn_extended hd)
      (Phase.bears_of_not_found (p := .ready start) ⟨hpoint ▸ hx, hgradient⟩ rfl) hobeys).iterate
    exact (congrArg (fun y => y.point.shape) hending.final_eq).trans (hbears.1.trans hx.symm)
  · rw [show ((openAt (d.work (Space.size x)) x).run.run {}).1 = _ from hstart] at hopen
    obtain ⟨l, hrun⟩ := run_of_stop state () hstart
    rw [hrun] at hout
    cases hout
    exact congrArg Tensor.shape hopen

end Descent

end Downhill
