import Downhill.Proofs.Exact.Matrix
import Downhill.Proofs.Problem.Responsive

/-! Central differences in exact arithmetic. At a vector of the field the points that are asked for
are vectors of the field too, and no move is zero; so where the answers are numbers the quotients
are, and they are those of the field. -/
open Matrix

namespace Downhill
variable {K : Type} [ExactField K] {n : ℕ}

open Exact

/-- At a vector of the field the answer is a value of the field, with `F`. -/
def Embedded {β γ : Type} (embed : β → γ) (F : (Fin n → K) → β → Prop) (x : Vector (Exact K) n)
    (a : γ) : Prop :=
  ∀ v, x = lift v → ∃ b, a = embed b ∧ F v b

omit [ExactField K] in
/-- What is computed from values of the field is found for one vector at a time. -/
theorem replies_embedded {β γ V : Type} {embed : β → γ} {F : (Fin n → K) → β → Prop}
    {c : Eval (Exact K) V γ} {x : Vector (Exact K) n} (h : Replies c fun _ => True)
    (hv : ∀ v, x = lift v → Replies c fun a => ∃ b, a = embed b ∧ F v b) :
    Replies c (Embedded embed F x) := by
  intro t _
  have hanswer := h t trivial
  rcases hr : (c.run.run t).1 with f | a <;> rw [hr] at hanswer
  · exact hanswer.elim
  · intro v hx
    have hvalue := hv v hx t trivial
    rwa [hr] at hvalue

namespace Difference

/-- The moves of the coordinates, in the field. -/
def moved (eps : K) (x : Fin n → K) : Fin n → K := fun i => eps * max 1 |x i|

theorem moved_pos {eps : K} (h : 0 < eps) (x : Fin n → K) (i : Fin n) : 0 < moved eps x i :=
  mul_pos h (lt_max_of_lt_left one_pos)

theorem moves_lift (eps : K) (x : Fin n → K) :
    moves (number eps) (lift x) = lift (moved eps x) := by
  ext i hi
  have hleast : ∀ a : K, atLeastOne (number a) = number (max 1 a) := by
    intro a
    unfold atLeastOne
    rcases le_or_gt a 1 with h | h
    · rw [max_eq_left h]
      exact if_pos h
    · rw [max_eq_right h.le]
      exact if_neg h.not_ge
  simp [hleast, moved]

theorem spike_lift (i : Fin n) (h : K) :
    spike i (number h) = lift (Pi.single i h) := by
  ext j hj
  by_cases hij : i = ⟨j, hj⟩
  · subst hij
    simp
  · have hji : (⟨j, hj⟩ : Fin n) ≠ i := fun h => hij h.symm
    simp [hij, hji]

section Quotients
variable {h k : K} (hh : 0 < h)
include hh

theorem slope_number (up down : K) : (number up - number down) / (2.0 * number h) =
    number ((up - down) / (2 * h)) := by
  have htwo : (2.0 : Exact K) = number 2 := congrArg number (by norm_num)
  rw [htwo, number_mul, number_sub, number_div (mul_pos two_pos hh).ne']

theorem bend_number (up middle down : K) :
    (number up - 2.0 * number middle + number down) / (number h * number h) =
      number ((up - 2 * middle + down) / (h * h)) := by
  have htwo : (2.0 : Exact K) = number 2 := congrArg number (by norm_num)
  rw [htwo, number_mul, number_mul, number_sub, number_add, number_div (mul_pos hh hh).ne']

theorem twist_number (hk : 0 < k) (upUp upDown downUp downDown : K) :
    (number upUp - number upDown - number downUp + number downDown) / (4.0 * number h * number k) =
      number ((upUp - upDown - downUp + downDown) / (4 * h * k)) := by
  have hfour : (4.0 : Exact K) = number 4 := congrArg number (by norm_num)
  rw [hfour, number_mul, number_mul, number_sub, number_sub, number_add,
    number_div (mul_pos (mul_pos four_pos hh) hk).ne']

theorem column_number (up down : Fin n → K) :
    (lift up - lift down).map (· / (2.0 * number h)) = lift ((1 / (2 * h)) • (up - down)) := by
  have htwo : (2.0 : Exact K) = number 2 := congrArg number (by norm_num)
  ext j hj
  rw [htwo, number_mul, lift_sub, Vector.getElem_map, getElem_lift, getElem_lift,
    number_div (mul_pos two_pos hh).ne', Pi.smul_apply, smul_eq_mul, one_div_mul_eq_div]

end Quotients

section Replies
variable {f : Vector (Exact K) n → Eval (Exact K) (Vector (Exact K) n) (Exact K)}
  {F : (Fin n → K) → K → Prop}
  {g : Vector (Exact K) n → Eval (Exact K) (Vector (Exact K) n) (Vector (Exact K) n)}
  {G : (Fin n → K) → (Fin n → K) → Prop} {eps : K} (heps : 0 < eps) (x : Fin n → K)

theorem get_moves (i : Fin n) : (moves (number eps) (lift x)).get i = number (moved eps x i) := by
  rw [moves_lift, get_eq_getElem, Fin.getElem_fin, getElem_lift]

include heps

theorem replies_slope_lift (hf : ∀ v, Replies (f v) (Embedded number F v)) (i : Fin n) :
    let h := moved eps x i
    Replies (slope f (number eps) (lift x) i) fun a => ∃ up down, F (x + Pi.single i h) up ∧
      F (x - Pi.single i h) down ∧ a = number ((up - down) / (2 * h)) := by
  intro h
  refine (replies_slope (number eps) (lift x) hf i).mono ?_
  rintro _ ⟨up, down, hup, hdown, rfl⟩
  rw [get_moves, spike_lift] at hup hdown
  obtain ⟨a, rfl, ha⟩ := hup _ (lift_add x _)
  obtain ⟨b, rfl, hb⟩ := hdown _ (lift_sub x _)
  refine ⟨a, b, ha, hb, ?_⟩
  rw [get_moves, slope_number (moved_pos heps x i)]

theorem replies_column_lift (hg : ∀ v, Replies (g v) (Embedded lift G v)) (i : Fin n) :
    let h := moved eps x i
    Replies (column g (number eps) (lift x) i) fun c => ∃ up down, G (x + Pi.single i h) up ∧
      G (x - Pi.single i h) down ∧ c = lift ((1 / (2 * h)) • (up - down)) := by
  intro h
  refine (replies_column (number eps) (lift x) hg i).mono ?_
  rintro _ ⟨up, down, hup, hdown, rfl⟩
  rw [get_moves, spike_lift] at hup hdown
  obtain ⟨a, rfl, ha⟩ := hup _ (lift_add x _)
  obtain ⟨b, rfl, hb⟩ := hdown _ (lift_sub x _)
  refine ⟨a, b, ha, hb, ?_⟩
  rw [get_moves, column_number (moved_pos heps x i)]

theorem replies_bend_lift (hf : ∀ v, Replies (f v) (Embedded number F v)) (middle : K)
    (i : Fin n) :
    let h := moved eps x i
    Replies (bend f (number eps) (lift x) (number middle) i) fun a => ∃ up down,
      F (x + Pi.single i h) up ∧ F (x - Pi.single i h) down ∧
      a = number ((up - 2 * middle + down) / (h * h)) := by
  intro h
  refine (replies_bend (number eps) (lift x) hf (number middle) i).mono ?_
  rintro _ ⟨up, down, hup, hdown, rfl⟩
  rw [get_moves, spike_lift] at hup hdown
  obtain ⟨a, rfl, ha⟩ := hup _ (lift_add x _)
  obtain ⟨b, rfl, hb⟩ := hdown _ (lift_sub x _)
  refine ⟨a, b, ha, hb, ?_⟩
  rw [get_moves, bend_number (moved_pos heps x i)]

theorem replies_twist_lift (hf : ∀ v, Replies (f v) (Embedded number F v)) (i j : Fin n) :
    let u := Pi.single i (moved eps x i)
    let v := Pi.single j (moved eps x j)
    Replies (twist f (number eps) (lift x) i j) fun a => ∃ upUp upDown downUp downDown,
      F (x + u + v) upUp ∧ F (x + u - v) upDown ∧ F (x - u + v) downUp ∧ F (x - u - v) downDown ∧
      a = number ((upUp - upDown - downUp + downDown) / (4 * moved eps x i * moved eps x j)) := by
  intro u v
  refine (replies_twist (number eps) (lift x) hf i j).mono ?_
  rintro _ ⟨upUp, upDown, downUp, downDown, huu, hud, hdu, hdd, rfl⟩
  simp only [get_moves, spike_lift, lift_add, lift_sub] at huu hud hdu hdd
  obtain ⟨a, rfl, ha⟩ := huu _ rfl
  obtain ⟨b, rfl, hb⟩ := hud _ rfl
  obtain ⟨c, rfl, hc⟩ := hdu _ rfl
  obtain ⟨d, rfl, hd⟩ := hdd _ rfl
  refine ⟨a, b, c, d, ha, hb, hc, hd, ?_⟩
  rw [get_moves, get_moves, twist_number (moved_pos heps x i) (moved_pos heps x j)]

/-- The gradient by central differences. -/
theorem replies_gradient_lift (hf : ∀ v, Replies (f v) (Embedded number F v)) :
    Replies (gradient f (number eps) (lift x)) fun v => ∃ w, v = lift w ∧ ∀ i, ∃ up down,
      F (x + Pi.single i (moved eps x i)) up ∧ F (x - Pi.single i (moved eps x i)) down ∧
      w i = (up - down) / (2 * moved eps x i) := by
  refine (replies_gradient _ _ (replies_slope_lift heps x hf)).mono fun v hv => ?_
  choose up down hup hdown hv using hv
  refine ⟨fun i => (up i - down i) / (2 * moved eps x i), Vector.ext fun i hi => ?_,
    fun i => ⟨up i, down i, hup i, hdown i, rfl⟩⟩
  rw [getElem_lift]
  exact hv ⟨i, hi⟩

/-- The Hessian by central differences of a gradient. -/
theorem replies_hessianOfGradient_lift (hg : ∀ v, Replies (g v) (Embedded lift G v)) :
    Replies (hessianOfGradient g (number eps) (lift x)) fun m => ∃ a : SquareMatrix K n,
      m = liftMatrix (symmetricPart a) ∧ ∀ i, ∃ up down,
      G (x + Pi.single i (moved eps x i)) up ∧ G (x - Pi.single i (moved eps x i)) down ∧
      aᵀ i = (1 / (2 * moved eps x i)) • (up - down) := by
  refine (replies_hessianOfGradient _ _ (replies_column_lift heps x hg)).mono ?_
  rintro _ ⟨columns, hcolumns, rfl⟩
  choose up down hup hdown hcolumns using hcolumns
  let a : SquareMatrix K n := (of fun i => (1 / (2 * moved eps x i)) • (up i - down i))ᵀ
  have hlift : columns = liftMatrix aᵀ := Vector.ext fun i hi => by
    rw [getElem_liftMatrix]
    exact hcolumns ⟨i, hi⟩
  refine ⟨a, ?_, fun i => ⟨up i, down i, hup i, hdown i, rfl⟩⟩
  rw [hlift, Matrix.ofColumns, transpose_lift, transpose_transpose, symmetrize_lift]

/-- The Hessian by second differences, in terms of what its entries have. -/
theorem replies_hessian_lift (hf : ∀ v, Replies (f v) (Embedded number F v))
    {E : Fin n → Fin n → K → Prop}
    (hbend : ∀ i middle up down, F x middle → F (x + Pi.single i (moved eps x i)) up →
      F (x - Pi.single i (moved eps x i)) down →
      E i i ((up - 2 * middle + down) / (moved eps x i * moved eps x i)))
    (htwist : ∀ i j upUp upDown downUp downDown,
      F (x + Pi.single i (moved eps x i) + Pi.single j (moved eps x j)) upUp →
      F (x + Pi.single i (moved eps x i) - Pi.single j (moved eps x j)) upDown →
      F (x - Pi.single i (moved eps x i) + Pi.single j (moved eps x j)) downUp →
      F (x - Pi.single i (moved eps x i) - Pi.single j (moved eps x j)) downDown →
      E i j ((upUp - upDown - downUp + downDown) / (4 * moved eps x i * moved eps x j))) :
    Replies (hessian f (number eps) (lift x)) fun m => ∃ a : SquareMatrix K n,
      m = liftMatrix a ∧ ∀ i j, E (min i j) (max i j) (a i j) := by
  have hmiddle : Replies (f (lift x)) fun a => ∃ y, a = number y ∧ F x y :=
    (hf (lift x)).mono fun a ha => ha x rfl
  refine (replies_hessian (Q := fun i j a => ∃ y, a = number y ∧ E i j y) _ _ hmiddle
    (fun _ hm i => ?_) fun i j _ => ?_).mono fun m hm => ?_
  · obtain ⟨middle, rfl, hm⟩ := hm
    refine (replies_bend_lift heps x hf middle i).mono ?_
    rintro _ ⟨up, down, hup, hdown, rfl⟩
    exact ⟨_, rfl, hbend i middle up down hm hup hdown⟩
  · refine (replies_twist_lift heps x hf i j).mono ?_
    rintro _ ⟨a, b, c, d, ha, hb, hc, hd, rfl⟩
    exact ⟨_, rfl, htwist i j a b c d ha hb hc hd⟩
  · choose a ha hE using hm
    refine ⟨of a, Vector.ext fun i hi => Vector.ext fun j hj => ?_, hE⟩
    rw [getElem_liftMatrix, getElem_lift]
    exact ha ⟨i, hi⟩ ⟨j, hj⟩

end Replies

theorem exists_defaultStep : ∃ eps, 0 < eps ∧ (defaultStep : Exact K) = number eps :=
  ⟨6.0554544523933395e-06, by norm_num, rfl⟩

theorem exists_defaultSecondStep : ∃ eps, 0 < eps ∧ (defaultSecondStep : Exact K) = number eps :=
  ⟨1e-4, by norm_num, rfl⟩

variable (F : (Fin n → K) → K → Prop) (G : (Fin n → K) → (Fin n → K) → Prop)
  (E : (Fin n → K) → Fin n → Fin n → K → Prop) (H : (Fin n → K) → SquareMatrix K n → Prop)

/-- What derivatives have follows from what the differences of values and gradients have; `E` is
about the entries of a Hessian. -/
structure Carries : Prop where
  slope : ∀ eps, 0 < eps → ∀ x w, (∀ i, ∃ up down, F (x + Pi.single i (moved eps x i)) up ∧
    F (x - Pi.single i (moved eps x i)) down ∧ w i = (up - down) / (2 * moved eps x i)) → G x w
  column : ∀ eps, 0 < eps → ∀ x (a : SquareMatrix K n), (∀ i, ∃ up down,
    G (x + Pi.single i (moved eps x i)) up ∧ G (x - Pi.single i (moved eps x i)) down ∧
    aᵀ i = (1 / (2 * moved eps x i)) • (up - down)) → H x (symmetricPart a)
  bend : ∀ eps, 0 < eps → ∀ x i middle up down, F x middle →
    F (x + Pi.single i (moved eps x i)) up → F (x - Pi.single i (moved eps x i)) down →
    E x i i ((up - 2 * middle + down) / (moved eps x i * moved eps x i))
  twist : ∀ eps, 0 < eps → ∀ x i j upUp upDown downUp downDown,
    F (x + Pi.single i (moved eps x i) + Pi.single j (moved eps x j)) upUp →
    F (x + Pi.single i (moved eps x i) - Pi.single j (moved eps x j)) upDown →
    F (x - Pi.single i (moved eps x i) + Pi.single j (moved eps x j)) downUp →
    F (x - Pi.single i (moved eps x i) - Pi.single j (moved eps x j)) downDown →
    E x i j ((upUp - upDown - downUp + downDown) / (4 * moved eps x i * moved eps x j))
  entries : ∀ x (a : SquareMatrix K n), (∀ i j, E x (min i j) (max i j) (a i j)) → H x a

end Difference

namespace Problem
variable {p : Problem (Exact K) (Vector (Exact K) n) (Matrix (Exact K) n)}

omit [ExactField K] in
theorem Answers.total {α V M : Type} {p : Problem α V M} {F : V → α → Prop} {G : V → V → Prop}
    {H : V → M → Prop} (h : p.Answers F G H) : p.Total where
  value x := (h.value x).imp fun _ hf => ⟨hf.1, trivial⟩
  gradient g hg x := (h.gradient g hg x).imp fun _ hv => ⟨hv.1, trivial⟩
  hessian k hk x := (h.hessian k hk x).imp fun _ hm => ⟨hm.1, trivial⟩

variable {F : (Fin n → K) → K → Prop} {G : (Fin n → K) → (Fin n → K) → Prop}
  {E : (Fin n → K) → Fin n → Fin n → K → Prop} {H : (Fin n → K) → SquareMatrix K n → Prop}
  (h : p.Answers (Embedded number F) (Embedded lift G) (Embedded liftMatrix H))
  (hd : Difference.Carries F G E H) (x : Vector (Exact K) n)
include h hd

/-- The gradients of a run, whether they are given or not. -/
theorem Answers.replies_gradient_embedded (needHessian : Bool) :
    Replies ((p.work n needHessian).gradient x) (Embedded lift G x) := by
  obtain ⟨eps, heps, hstep⟩ := Difference.exists_defaultStep (K := K)
  refine h.replies_gradient (fun x => replies_embedded
    (Difference.replies_gradient_any _ x h.replies_counted_value) ?_) x
  rintro v rfl
  rw [hstep]
  refine (Difference.replies_gradient_lift heps v h.replies_counted_value).mono ?_
  rintro _ ⟨w, rfl, hw⟩
  exact ⟨w, rfl, hd.slope eps heps v w hw⟩

/-- The Hessians of a run that needs them. -/
theorem Answers.replies_hessian_embedded :
    Replies ((p.work n true).hessian x) (Embedded liftMatrix H x) := by
  obtain ⟨eps, heps, hstep⟩ := Difference.exists_defaultStep (K := K)
  obtain ⟨eps', heps', hstep'⟩ := Difference.exists_defaultSecondStep (K := K)
  refine h.replies_hessian (fun x => replies_embedded
    (Difference.replies_hessian_any _ x h.replies_counted_value) ?_)
    (fun hg x => replies_embedded
      (Difference.replies_hessianOfGradient_any _ x (h.replies_counted_gradient hg)) ?_) x
  · rintro v rfl
    rw [hstep']
    refine (Difference.replies_hessian_lift heps' v h.replies_counted_value
      (hd.bend eps' heps' v) (hd.twist eps' heps' v)).mono ?_
    rintro _ ⟨a, rfl, ha⟩
    exact ⟨a, rfl, hd.entries v a ha⟩
  · rintro v rfl
    rw [hstep]
    refine (Difference.replies_hessianOfGradient_lift heps v
      (h.replies_counted_gradient hg)).mono ?_
    rintro _ ⟨a, rfl, ha⟩
    exact ⟨_, rfl, hd.column eps heps v a ha⟩

end Problem

end Downhill
