import Downhill.Linear.Euclidean
import Downhill.Proofs.Problem.Quiet
import Downhill.Proofs.Replies

/-! What a run hears of a problem that raises no fault. Over vectors the checks of extents succeed,
and the central differences that stand in for a derivative ask only for values and gradients; so
every question is answered, and what the answers have is found from what the problem says. -/
namespace Downhill
variable {α V M : Type}

/-- The problem raises no fault; its values, gradients and Hessians are related to the points by
`F`, `G` and `H`. -/
structure Problem.Answers (p : Problem α V M) (F : V → α → Prop) (G : V → V → Prop)
    (H : V → M → Prop) : Prop where
  value : ∀ x, ∃ f, p.value x = .ok f ∧ F x f
  gradient : ∀ g, p.gradient? = some g → ∀ x, ∃ v, g x = .ok v ∧ G x v
  hessian : ∀ h, p.hessian? = some h → ∀ x, ∃ m, h x = .ok m ∧ H x m

/-- The problem raises no fault, whatever it answers. -/
def Problem.Total (p : Problem α V M) : Prop :=
  p.Answers (fun _ _ => True) (fun _ _ => True) fun _ _ => True

namespace Oracle
variable {o : Oracle α V M}

/-- Values and gradients are always answered. -/
structure Responds (o : Oracle α V M) : Prop where
  value : ∀ x, Replies (o.value x) fun _ => True
  gradient : ∀ x, Replies (o.gradient x) fun _ => True

theorem replies_recorded_value {x : V} {Q : α → Prop} (h : Replies (o.value x) Q) :
    Replies (o.recorded.value x) Q :=
  .bind (R := fun _ => True) (fun _ _ => trivial) fun _ _ => h

theorem replies_recorded_gradient {x : V} {Q : V → Prop} (h : Replies (o.gradient x) Q) :
    Replies (o.recorded.gradient x) Q :=
  .bind (R := fun _ => True) (fun _ _ => trivial) fun _ _ => h

theorem replies_recorded_hessian {x : V} {Q : M → Prop} (h : Replies (o.hessian x) Q) :
    Replies (o.recorded.hessian x) Q :=
  .bind (R := fun _ => True) (fun _ _ => trivial) fun _ _ => h

end Oracle

variable [Scalar α] {n : ℕ}

namespace Difference

section Vectors
variable {m : Type → Type} [Monad m] [LawfulMonad m] [MonadExcept (Fault α) m] (eps : α)
  (x : Vector α n)

theorem not_one_lt_width : ¬ 1 < width x := by
  change ¬ 1 < n / n
  rcases Nat.eq_zero_or_pos n with rfl | hn
  · exact Nat.not_lt_zero 1
  · rw [Nat.div_self hn]
    exact Nat.lt_irrefl 1

/-- On vectors the checks of the extents succeed. -/
theorem gradientAt_vector (f : Vector α n → m α) :
    (Difference.gradientAt f eps x : m (Vector α n)) = gradient f eps x := by
  rw [Difference.gradientAt, if_neg (by simp [Space.shape]), if_neg (not_one_lt_width x)]
  exact bind_pure _

theorem hessianAt_vector (f : Vector α n → m α) :
    (Difference.hessianAt f eps x : m (Matrix α n)) = hessian f eps x := by
  rw [Difference.hessianAt, if_neg (by simp [Space.shape]), if_neg (by simp [Space.shape])]
  exact bind_pure _

theorem hessianOfGradientAt_vector (g : Vector α n → m (Vector α n)) :
    (Difference.hessianOfGradientAt g eps x : m (Matrix α n)) = hessianOfGradient g eps x := by
  have hcolumn : ∀ v : Vector α n, (columnOf x v : m (Vector α n)) = pure v := fun _ => rfl
  rw [Difference.hessianOfGradientAt, if_neg (by simp [Space.shape]),
    if_neg (not_one_lt_width x)]
  simp only [hcolumn, bind_pure]
  exact bind_pure _

end Vectors

section Replies
variable {f : Vector α n → Eval α V α} {F : Vector α n → α → Prop}
  {g : Vector α n → Eval α V (Vector α n)} {G : Vector α n → Vector α n → Prop} (eps : α)
  (x : Vector α n)

theorem replies_slope (hf : ∀ v, Replies (f v) (F v)) (i : Fin n) :
    let h := (moves eps x).get i
    Replies (slope f eps x i) fun a => ∃ up down, F (x + spike i h) up ∧ F (x - spike i h) down ∧
      a = (up - down) / (2.0 * h) :=
  .bind (hf _) fun up hup => .bind (hf _) fun down hdown => .pure ⟨up, down, hup, hdown, rfl⟩

theorem replies_bend (hf : ∀ v, Replies (f v) (F v)) (middle : α) (i : Fin n) :
    let h := (moves eps x).get i
    Replies (bend f eps x middle i) fun a => ∃ up down, F (x + spike i h) up ∧
      F (x - spike i h) down ∧ a = (up - 2.0 * middle + down) / (h * h) :=
  .bind (hf _) fun up hup => .bind (hf _) fun down hdown => .pure ⟨up, down, hup, hdown, rfl⟩

theorem replies_twist (hf : ∀ v, Replies (f v) (F v)) (i j : Fin n) :
    let h := (moves eps x).get i
    let k := (moves eps x).get j
    Replies (twist f eps x i j) fun a => ∃ upUp upDown downUp downDown,
      F (x + spike i h + spike j k) upUp ∧ F (x + spike i h - spike j k) upDown ∧
      F (x - spike i h + spike j k) downUp ∧ F (x - spike i h - spike j k) downDown ∧
      a = (upUp - upDown - downUp + downDown) / (4.0 * h * k) :=
  .bind (hf _) fun a ha => .bind (hf _) fun b hb => .bind (hf _) fun c hc => .bind (hf _)
    fun d hd => .pure ⟨a, b, c, d, ha, hb, hc, hd, rfl⟩

theorem replies_column (hg : ∀ v, Replies (g v) (G v)) (i : Fin n) :
    let h := (moves eps x).get i
    Replies (column g eps x i) fun c => ∃ up down, G (x + spike i h) up ∧ G (x - spike i h) down ∧
      c = (up - down).map (· / (2.0 * h)) :=
  .bind (hg _) fun up hup => .bind (hg _) fun down hdown => .pure ⟨up, down, hup, hdown, rfl⟩

/-- The entries of a Hessian by second differences, of which those below the diagonal mirror the
others. -/
theorem replies_hessian {R : α → Prop} {Q : Fin n → Fin n → α → Prop} (hmiddle : Replies (f x) R)
    (hbend : ∀ middle, R middle → ∀ i, Replies (bend f eps x middle i) (Q i i))
    (htwist : ∀ i j, i < j → Replies (twist f eps x i j) (Q i j)) :
    Replies (hessian f eps x) fun m => ∀ i j, Q (min i j) (max i j) ((m.get i).get j) := by
  refine .bind hmiddle fun middle hm => ?_
  refine .bind (R := fun upper => ∀ i j, i ≤ j → Q i j ((upper.get i).get j)) ?_
    fun upper hupper => .pure fun i j => ?_
  · refine Replies.ofFnM (Q := fun i row => ∀ j, i ≤ j → Q i j (Vector.get row j)) fun i => ?_
    refine Replies.ofFnM (Q := fun j a => i ≤ j → Q i j a) fun j => ?_
    split_ifs with hji hij
    · exact .pure fun hle => absurd hji hle.not_gt
    · subst hij
      exact (hbend middle hm i).mono fun _ h _ => h
    · exact (htwist i j (lt_of_le_of_ne (not_lt.mp hji) hij)).mono fun _ h _ => h
  · rcases lt_or_ge j i with hji | hij
    · rw [min_eq_right hji.le, max_eq_left hji.le]
      simpa [hji] using hupper j i hji.le
    · rw [min_eq_left hij, max_eq_right hij]
      simpa [not_lt.mpr hij] using hupper i j hij

theorem replies_gradient {Q : Fin n → α → Prop}
    (h : ∀ i, Replies (slope f eps x i) (Q i)) :
    Replies (gradient f eps x) fun v => ∀ i, Q i (v.get i) :=
  .ofFnM h

theorem replies_hessianOfGradient {Q : Fin n → Vector α n → Prop}
    (h : ∀ i, Replies (column g eps x i) (Q i)) :
    Replies (hessianOfGradient g eps x) fun m => ∃ columns : Vector (Vector α n) n,
      (∀ i, Q i (columns.get i)) ∧ m = (Matrix.ofColumns columns).symmetrize :=
  .bind (.ofFnM h) fun columns hcolumns => .pure ⟨columns, hcolumns, rfl⟩

/-- Differences are answered where their functions are. -/
theorem replies_gradient_any (hf : ∀ v, Replies (f v) (F v)) :
    Replies (gradient f eps x) fun _ => True :=
  (replies_gradient (Q := fun _ _ => True) eps x fun i =>
    (replies_slope eps x hf i).mono fun _ _ => trivial).mono fun _ _ => trivial

theorem replies_hessian_any (hf : ∀ v, Replies (f v) (F v)) :
    Replies (hessian f eps x) fun _ => True :=
  (replies_hessian (Q := fun _ _ _ => True) eps x (hf x)
    (fun middle _ i => (replies_bend eps x hf middle i).mono fun _ _ => trivial)
    fun i j _ => (replies_twist eps x hf i j).mono fun _ _ => trivial).mono fun _ _ => trivial

theorem replies_hessianOfGradient_any (hg : ∀ v, Replies (g v) (G v)) :
    Replies (hessianOfGradient g eps x) fun _ => True :=
  (replies_hessianOfGradient (Q := fun _ _ => True) eps x fun i =>
    (replies_column eps x hg i).mono fun _ _ => trivial).mono fun _ _ => trivial

end Replies

end Difference

namespace Problem.Answers
variable {p : Problem α (Vector α n) (Matrix α n)} {F : Vector α n → α → Prop}
  {G : Vector α n → Vector α n → Prop} {H : Vector α n → Matrix α n → Prop}
  (h : p.Answers F G H) {needHessian : Bool}
include h

theorem replies_counted_value (x : Vector α n) : Replies ((p.counted n).value x) (F x) := by
  obtain ⟨f, hf, hF⟩ := h.value x
  exact .bind (R := fun _ => True) (fun _ _ => trivial) fun _ _ => Eval.replies_ofExcept hf hF

theorem replies_counted_gradient (hg : p.hasGradient = true) (x : Vector α n) :
    Replies ((p.counted n).gradient x) (G x) := by
  obtain ⟨g, hsome⟩ := Option.isSome_iff_exists.mp hg
  obtain ⟨v, hv, hG⟩ := h.gradient g hsome x
  have hanswer : p.gradient x = .ok v := by
    rw [Problem.gradient, hsome]
    exact hv
  refine .bind (R := fun _ => True) (fun _ _ => trivial) fun _ _ => ?_
  exact .bind (Eval.replies_ofExcept hanswer hG) fun w hw => .ite (fun _ => .pure hw)
    fun hno => absurd rfl hno

theorem replies_counted_hessian (hh : p.hasHessian = true) (x : Vector α n) :
    Replies ((p.counted n).hessian x) (H x) := by
  obtain ⟨g, hsome⟩ := Option.isSome_iff_exists.mp hh
  obtain ⟨m, hm, hH⟩ := h.hessian g hsome x
  have hanswer : p.hessian x = .ok m := by
    rw [Problem.hessian, hsome]
    exact hm
  refine .bind (R := fun _ => True) (fun _ _ => trivial) fun _ _ => ?_
  exact .bind (Eval.replies_ofExcept hanswer hH) fun w hw => .ite (fun _ => .pure hw)
    fun hno => absurd rfl hno

theorem replies_value (x : Vector α n) :
    Replies ((p.work n needHessian).value x) (F x) := by
  refine Oracle.replies_recorded_value ?_
  unfold Oracle.differentiable
  split_ifs <;> exact h.replies_counted_value x

theorem replies_gradient
    (hfilled : ∀ x,
      Replies (Difference.gradient (p.counted n).value Difference.defaultStep x) (G x))
    (x : Vector α n) : Replies ((p.work n needHessian).gradient x) (G x) := by
  refine Oracle.replies_recorded_gradient ?_
  unfold Oracle.differentiable
  split_ifs with hoffers
  · rw [Oracle.offers, Bool.and_eq_true] at hoffers
    exact h.replies_counted_gradient hoffers.1 x
  · change Replies ((if p.hasGradient then (p.counted n).gradient
      else Difference.gradientAt (p.counted n).value Difference.defaultStep) x) (G x)
    split_ifs with hg
    · exact h.replies_counted_gradient hg x
    · rw [Difference.gradientAt_vector]
      exact hfilled x

/-- The Hessian of a run that needs one. -/
theorem replies_hessian
    (hfilled : ∀ x, Replies (Difference.hessian (p.counted n).value Difference.defaultSecondStep x)
      (H x))
    (hcolumns : p.hasGradient = true → ∀ x, Replies
      (Difference.hessianOfGradient (p.counted n).gradient Difference.defaultStep x) (H x))
    (x : Vector α n) : Replies ((p.work n true).hessian x) (H x) := by
  refine Oracle.replies_recorded_hessian ?_
  unfold Oracle.differentiable
  split_ifs with hoffers
  · simp only [Oracle.offers, Bool.not_true, Bool.or_false, Bool.and_eq_true] at hoffers
    exact h.replies_counted_hessian hoffers.2 x
  · change Replies ((if p.hasHessian then (p.counted n).hessian
      else if p.hasGradient then
        Difference.hessianOfGradientAt (p.counted n).gradient Difference.defaultStep
      else Difference.hessianAt (p.counted n).value Difference.defaultSecondStep) x) (H x)
    split_ifs with hh hg
    · exact h.replies_counted_hessian hh x
    · rw [Difference.hessianOfGradientAt_vector]
      exact hcolumns hg x
    · rw [Difference.hessianAt_vector]
      exact hfilled x

end Problem.Answers

namespace Problem.Total
variable {p : Problem α (Vector α n) (Matrix α n)} (h : p.Total)
include h

theorem responds (needHessian : Bool) : (p.work n needHessian).Responds :=
  ⟨Answers.replies_value h, Answers.replies_gradient h fun x =>
    Difference.replies_gradient_any _ x h.replies_counted_value⟩

theorem replies_hessian (x : Vector α n) :
    Replies ((p.work n true).hessian x) fun _ => True :=
  Answers.replies_hessian h
    (fun x => Difference.replies_hessian_any _ x h.replies_counted_value)
    (fun hg x => Difference.replies_hessianOfGradient_any _ x (h.replies_counted_gradient hg)) x

end Problem.Total

end Downhill
