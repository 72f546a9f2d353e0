import Downhill.Proofs.Descent.Conduct

/-! What evaluations cost. A derivative that is made of differences costs a fixed number of values
or of gradients, so what a problem is asked for settles how often it is evaluated. -/
open Finset

namespace Downhill
variable {α V M β γ : Type}

namespace Ledger

/-- How many values, gradients and Hessians of the problem were evaluated. -/
def spent (l : Ledger α V) : ℕ × ℕ × ℕ :=
  (l.evaluations.values, l.evaluations.gradients, l.evaluations.hessians)

end Ledger

/-- An answer has `Q`, and a fault has `E`. -/
def Unless {ε τ : Type} (E : ε → Prop) (Q : β → τ → Prop) : Except ε β → τ → Prop
  | .ok b, t => Q b t
  | .error e, _ => E e

/-- The computation costs `k`, unless it ends in a fault with `E`. -/
def Charges (E : Fault α → Prop) (k : ℕ × ℕ × ℕ) (c : Eval α V β) : Prop :=
  ∀ e, Ensures (fun l => l.spent = e) c (Preserved E fun l => l.spent = e + k)

/-- The computation costs `k` where it has an answer, and its faults have `E`. -/
def Costs (E : Fault α → Prop) (k : ℕ × ℕ × ℕ) (c : Eval α V β) : Prop :=
  ∀ e, Ensures (fun l => l.spent = e) c (Unless E fun _ l => l.spent = e + k)

theorem Costs.charges {E : Fault α → Prop} {k : ℕ × ℕ × ℕ} {c : Eval α V β} (h : Costs E k c) :
    Charges E k c := by
  refine fun e => .mono (h e) (fun _ hl => hl) fun r l hl => ?_
  cases r with
  | ok b => exact .inl hl
  | error f => exact .inr ⟨f, rfl, hl⟩

namespace Costs
variable {E : Fault α → Prop} {j k : ℕ × ℕ × ℕ} {c : Eval α V γ} {f : γ → Eval α V β}

theorem pure (b : β) : Costs E 0 (pure b : Eval α V β) := fun _ => .pure fun _ hl => hl

theorem bind (hc : Costs E j c) (hf : ∀ b, Costs E k (f b)) : Costs E (j + k) (c >>= f) := by
  refine fun e => .bind (hc e) (fun b => ?_) fun _ _ h => h
  rw [← add_assoc]
  exact hf b (e + j)

/-- Every entry has its own cost. -/
theorem ofFnM {n : ℕ} {f : Fin n → Eval α V β} {k : Fin n → ℕ × ℕ × ℕ}
    (h : ∀ i, Costs E (k i) (f i)) : Costs E (∑ i, k i) (Vector.ofFnM f) := by
  induction n with
  | zero =>
    rw [Vector.ofFnM_zero]
    exact pure _
  | succ n ih =>
    rw [Vector.ofFnM_succ, Fin.sum_univ_castSucc]
    refine .bind (ih fun i => h i.castSucc) fun as => ?_
    rw [← add_zero (k (Fin.last n))]
    exact .bind (h _) fun a => .pure _

end Costs

namespace Difference
variable [Scalar α] {n : ℕ} {E : Fault α → Prop} {k : ℕ × ℕ × ℕ}
  {f : Vector α n → Eval α (Vector α n) α} {g : Vector α n → Eval α (Vector α n) (Vector α n)}
  (eps : α) (x : Vector α n)

/-- The corners at which a second difference asks for a value, besides the middle. -/
def corners {n : ℕ} (i j : Fin n) : ℕ := if j < i then 0 else if i = j then 2 else 4

theorem corners_add_corners (i j : Fin n) : corners i j + corners j i = 4 := by
  unfold corners
  split_ifs <;> omega

theorem sum_corners : ∑ i : Fin n, ∑ j : Fin n, corners i j = 2 * n ^ 2 := by
  have htwice : ∑ i : Fin n, ∑ j : Fin n, corners i j + ∑ i : Fin n, ∑ j : Fin n, corners i j =
      4 * n ^ 2 := by
    nth_rewrite 2 [sum_comm]
    simp only [← sum_add_distrib, corners_add_corners, sum_const, card_univ, Fintype.card_fin,
      smul_eq_mul]
    ring
  omega

/-- A gradient by differences costs two values for each coordinate. -/
theorem costs_gradientAt (hf : ∀ v, Costs E k (f v)) :
    Costs E ((2 * n) • k) (Difference.gradientAt f eps x : Eval α _ (Vector α n)) := by
  have hslope : ∀ i, Costs E (k + (k + 0)) (slope f eps x i) := fun i =>
    .bind (hf _) fun _ => .bind (hf _) fun _ => .pure _
  rw [gradientAt_vector, show (2 * n) • k = ∑ _ : Fin n, (k + (k + 0)) by
    rw [sum_const, card_univ, Fintype.card_fin, add_zero, ← two_nsmul, smul_smul, mul_comm]]
  exact .ofFnM hslope

/-- A Hessian by second differences costs one value in the middle, two for each diagonal entry and
four for each pair of coordinates. -/
theorem costs_hessianAt (hf : ∀ v, Costs E k (f v)) :
    Costs E ((1 + 2 * n ^ 2) • k) (Difference.hessianAt f eps x : Eval α _ (Matrix α n)) := by
  have hentry : ∀ middle (i j : Fin n), Costs E (corners i j • k)
      (if j < i then Pure.pure 0 else if i = j then bend f eps x middle i
        else twist f eps x i j) := by
    intro middle i j
    unfold corners
    split_ifs
    · rw [zero_smul]
      exact .pure _
    · rw [show (2 : ℕ) • k = k + (k + 0) by rw [two_nsmul, add_zero]]
      exact .bind (hf _) fun _ => .bind (hf _) fun _ => .pure _
    · rw [show (4 : ℕ) • k = k + (k + (k + (k + 0))) by abel]
      exact .bind (hf _) fun _ => .bind (hf _) fun _ => .bind (hf _) fun _ =>
        .bind (hf _) fun _ => .pure _
  rw [hessianAt_vector, add_smul, one_smul, ← sum_corners, sum_smul]
  refine .bind (hf x) fun middle => ?_
  rw [← add_zero (∑ i : Fin n, _)]
  refine .bind (.ofFnM fun i => ?_) fun _ => .pure _
  rw [sum_smul]
  exact .ofFnM fun j => hentry middle i j

/-- A Hessian by differences of a gradient costs two gradients for each coordinate. -/
theorem costs_hessianOfGradientAt (hg : ∀ v, Costs E k (g v)) :
    Costs E ((2 * n) • k) (Difference.hessianOfGradientAt g eps x : Eval α _ (Matrix α n)) := by
  have hcolumn : ∀ i, Costs E (k + (k + 0)) (column g eps x i) := fun i =>
    .bind (hg _) fun _ => .bind (hg _) fun _ => .pure _
  rw [hessianOfGradientAt_vector, show (2 * n) • k = ∑ _ : Fin n, (k + (k + 0)) + 0 by
    rw [sum_const, card_univ, Fintype.card_fin, add_zero, add_zero, ← two_nsmul, smul_smul,
      mul_comm]]
  exact .bind (.ofFnM hcolumn) fun _ => .pure _

end Difference

namespace Eval

theorem ensures_countValue (e : ℕ × ℕ × ℕ) :
    Ensures (fun l : Ledger α V => l.spent = e) countValue fun r l =>
      r = .ok () ∧ l.spent = e + (1, 0, 0) := by
  rintro l rfl
  exact ⟨rfl, rfl⟩

theorem ensures_countGradient (e : ℕ × ℕ × ℕ) :
    Ensures (fun l : Ledger α V => l.spent = e) countGradient fun r l =>
      r = .ok () ∧ l.spent = e + (0, 1, 0) := by
  rintro l rfl
  exact ⟨rfl, rfl⟩

end Eval

namespace Request

def isValue : Request V → Bool
  | value _ => true
  | _ => false

def isGradient : Request V → Bool
  | gradient _ => true
  | _ => false

def isHessian : Request V → Bool
  | hessian _ => true
  | _ => false

end Request

namespace Problem
variable [Scalar α] {n : ℕ} (p : Problem α (Vector α n) (Matrix α n)) (needHessian : Bool)
  {E : Fault α → Prop} (x : Vector α n)

/-- The faults of values and gradients have `E`. -/
structure Faults {α V M : Type} (p : Problem α V M) (E : Fault α → Prop) : Prop where
  value : ∀ x f, p.value x = .error f → E f
  gradient : ∀ g, p.gradient? = some g → ∀ x f, g x = .error f → E f

theorem charges_counted_value : Charges E (1, 0, 0) ((p.counted n).value x) := fun e =>
  .bind (Eval.ensures_countValue e) (fun _ => .of_fact fun _ => Eval.preserves_ofExcept _)
    fun _ _ h => nomatch h.1

theorem charges_counted_gradient : Charges E (0, 1, 0) ((p.counted n).gradient x) := fun e =>
  .bind (Eval.ensures_countGradient e) (fun _ => .of_fact fun _ =>
    Preserves.bind (Eval.preserves_ofExcept _) fun _ => .ite (.pure _) (.throw _))
      fun _ _ h => nomatch h.1

theorem charges_counted_hessian : Charges E (0, 0, 1) ((p.counted n).hessian x) := by
  refine fun e => .bind (R := fun r l => r = .ok () ∧ l.spent = e + (0, 0, 1)) ?_
    (fun _ => .of_fact fun _ => Preserves.bind (Eval.preserves_ofExcept _) fun _ =>
      .ite (.pure _) (.throw _)) fun _ _ h => nomatch h.1
  rintro l rfl
  exact ⟨rfl, rfl⟩

section Faults
variable {p} (h : p.Faults E)
include h

theorem Faults.costs_value : Costs E (1, 0, 0) ((p.counted n).value x) := by
  refine fun e => .bind (Eval.ensures_countValue e) (fun _ => .of_fact fun _ l hl => ?_)
    fun _ _ h => nomatch h.1
  rcases hr : p.value x with f | a
  · exact h.value x f hr
  · exact hl

/-- A vector always fits the dimension. -/
theorem Faults.costs_gradient (hhas : p.hasGradient = true) :
    Costs E (0, 1, 0) ((p.counted n).gradient x) := by
  obtain ⟨g, hg⟩ := Option.isSome_iff_exists.mp hhas
  refine fun e => .bind (Eval.ensures_countGradient e) (fun _ => .of_fact fun _ => ?_)
    fun _ _ h => nomatch h.1
  refine .bind (R := Unless E fun _ l => l.spent = e + (0, 1, 0)) (fun l hl => ?_) (fun v => ?_)
    fun _ _ h => h
  · rcases hr : p.gradient x with f | v
    · rw [Problem.gradient, hg] at hr
      exact h.gradient g hg x f hr
    · exact hl
  · exact .ite (fun _ => .pure fun _ hl => hl) fun hno => absurd rfl hno

end Faults

/-- What a gradient costs. A missing one is made of two values for each coordinate. -/
def gradientPrice : ℕ × ℕ × ℕ := if p.hasGradient then (0, 1, 0) else (2 * n, 0, 0)

/-- What a Hessian costs. A missing one is made of two gradients for each coordinate or, without a
gradient, of second differences. -/
def hessianPrice : ℕ × ℕ × ℕ :=
  if (p.counted n).offers needHessian || p.hasHessian then (0, 0, 1)
  else if p.hasGradient then (0, 2 * n, 0)
  else (1 + 2 * n ^ 2, 0, 0)

def price : Request (Vector α n) → ℕ × ℕ × ℕ
  | .value _ => (1, 0, 0)
  | .gradient _ => p.gradientPrice
  | .hessian _ => p.hessianPrice needHessian

theorem sum_price (rs : List (Request (Vector α n))) :
    (rs.map (p.price needHessian)).sum = rs.countP Request.isValue • (1, 0, 0) +
      rs.countP Request.isGradient • p.gradientPrice +
      rs.countP Request.isHessian • p.hessianPrice needHessian := by
  induction rs with
  | nil => simp
  | cons r rs ih =>
    rw [List.map_cons, List.sum_cons, ih]
    cases r <;>
      simp only [price, List.countP_cons, Request.isValue, Request.isGradient,
        Request.isHessian, if_true, Bool.false_eq_true, if_false, add_zero, add_smul, one_smul] <;>
      abel

variable {p needHessian}

theorem charges_value :
    Charges E (p.price needHessian (.value x)) ((p.differentiable n needHessian).value x) := by
  unfold differentiable Oracle.differentiable
  split_ifs <;> exact p.charges_counted_value x

/-- A gradient costs its price if it is the problem's own; one of differences may end in a fault of
the problem. -/
theorem charges_gradient (h : (p.counted n).offers needHessian = true ∨ p.Faults E) :
    Charges E (p.price needHessian (.gradient x))
      ((p.differentiable n needHessian).gradient x) := by
  by_cases hoffers : (p.counted n).offers needHessian = true
  · have hhas : p.hasGradient = true := (Bool.and_eq_true_iff.mp hoffers).1
    rw [differentiable, Oracle.differentiable, if_pos hoffers, price, gradientPrice, if_pos hhas]
    exact p.charges_counted_gradient x
  · rw [differentiable, Oracle.differentiable, if_neg hoffers, price, gradientPrice]
    by_cases hhas : p.hasGradient = true
    · rw [show (p.counted n).filled.gradient = (p.counted n).gradient from if_pos hhas, if_pos hhas]
      exact p.charges_counted_gradient x
    · have hfilled : (p.counted n).filled.gradient = Difference.gradientAt (p.counted n).value
          Difference.defaultStep := if_neg hhas
      rw [hfilled, if_neg hhas]
      have hcosts := Difference.costs_gradientAt Difference.defaultStep x
        fun v => (h.resolve_left hoffers).costs_value v
      simpa using hcosts.charges

theorem charges_hessian (h : (p.counted n).offers needHessian = true ∨ p.Faults E) :
    Charges E (p.price needHessian (.hessian x)) ((p.differentiable n needHessian).hessian x) := by
  by_cases hoffers : (p.counted n).offers needHessian = true
  · rw [differentiable, Oracle.differentiable, if_pos hoffers, price, hessianPrice, hoffers,
      Bool.true_or, if_pos rfl]
    exact p.charges_counted_hessian x
  · rw [differentiable, Oracle.differentiable, if_neg hoffers, price, hessianPrice,
      Bool.eq_false_iff.mpr hoffers, Bool.false_or]
    have hfaults := h.resolve_left hoffers
    have hfilled : (p.counted n).filled.hessian = if p.hasHessian then (p.counted n).hessian
      else if p.hasGradient then
        Difference.hessianOfGradientAt (p.counted n).gradient Difference.defaultStep
      else Difference.hessianAt (p.counted n).value Difference.defaultSecondStep := rfl
    rw [hfilled]
    split_ifs with hhas hgradient
    · exact p.charges_counted_hessian x
    · have hcosts := Difference.costs_hessianOfGradientAt Difference.defaultStep x
        fun v => hfaults.costs_gradient v hgradient
      simpa using hcosts.charges
    · have hcosts := Difference.costs_hessianAt Difference.defaultSecondStep x
        fun v => hfaults.costs_value v
      simpa using hcosts.charges

variable (p needHessian)

/-- What was spent is the price of what was asked for. -/
def Balanced (l : Ledger α (Vector α n)) : Prop :=
  l.spent = (l.requests.toList.map (p.price needHessian)).sum

variable {p needHessian}

theorem preserves_balanced {c : Eval α (Vector α n) β} {r : Request (Vector α n)}
    (hquiet : ∀ rs, Maintains (fun l => l.requests = rs) c)
    (hc : Charges E (p.price needHessian r) c) :
    Preserves E (p.Balanced needHessian) (Eval.request r >>= fun _ => c) := by
  intro l hl
  have hrequests : ((Eval.request r >>= fun _ => c).run.run l).2.requests = l.requests.push r :=
    maintains_iff.mp (hquiet _) { l with requests := l.requests.push r } rfl
  have hcharges := hc l.spent { l with requests := l.requests.push r } rfl
  refine hcharges.imp_left fun hspent => ?_
  rw [Balanced, hrequests, Array.toList_push, List.map_append, List.sum_append, ← hl,
    List.map_singleton, List.sum_singleton]
  exact hspent

section Work
variable (p needHessian)

omit [Scalar α] in
theorem uncounted_requests (rs : Array (Request (Vector α n))) :
    Uncounted fun l : Ledger α (Vector α n) => l.requests = rs :=
  ⟨fun _ => .inl, fun _ => .inl, fun _ => .inl⟩

theorem balanced_value :
    Preserves E (p.Balanced needHessian) ((p.work n needHessian).value x) :=
  preserves_balanced (fun rs => (uncounted_requests rs).differentiable_value p _ x)
    (charges_value x)

variable {p needHessian} (h : (p.counted n).offers needHessian = true ∨ p.Faults E)
include h

theorem balanced_gradient :
    Preserves E (p.Balanced needHessian) ((p.work n needHessian).gradient x) :=
  preserves_balanced (fun rs => (uncounted_requests rs).differentiable_gradient p _ x)
    (charges_gradient x h)

theorem balanced_hessian :
    Preserves E (p.Balanced needHessian) ((p.work n needHessian).hessian x) :=
  preserves_balanced (fun rs => (uncounted_requests rs).differentiable_hessian p _ x)
    (charges_hessian x h)

end Work

end Problem

end Downhill
