import Downhill.Problem.Himmelblau
import Downhill.Problem.Valley
import Downhill.Proofs.Exact.Matrix

/-! The derivatives that the reference problems state are those of their values. Along any line the
value is a polynomial in the step; the stated gradient and the stated Hessian are its coefficients
of first and of second order. A chained valley is a sum of terms, each in two neighbouring
coordinates, so its gradient is a sum of two shifted sequences and its Hessian has three bands. -/
open Matrix

namespace Downhill
variable {K : Type} [ExactField K] {n : ℕ}

open Exact

/-- The problem has the value `v` and the gradient `g` at a point, and on the lines through it the
values of the tangent and of what `rest` adds, which is found from the direction and the step. -/
structure Problem.Expands (p : Problem (Exact K) (Vector (Exact K) n) (Matrix (Exact K) n))
    (x : Fin n → K) (v : K) (g : Fin n → K) (rest : (Fin n → K) → K → K) : Prop where
  value : p.value (lift x) = .ok (number v)
  gradient : p.gradient (lift x) = .ok (lift g)
  along : ∀ h t, p.value (lift (x + t • h)) = .ok (number (v + t * (g ⬝ᵥ h) + rest h t))

namespace Quadratic
variable (a : SquareMatrix K n) (b x h : Fin n → K) (t : K)

/-- A quadratic function on a line. -/
theorem value_along {a : SquareMatrix K n} (ha : a.IsSymm) :
    1 / 2 * ((x + t • h) ⬝ᵥ a *ᵥ (x + t • h)) - b ⬝ᵥ (x + t • h) =
      1 / 2 * (x ⬝ᵥ a *ᵥ x) - b ⬝ᵥ x + t * ((a *ᵥ x - b) ⬝ᵥ h) + t ^ 2 / 2 * (h ⬝ᵥ a *ᵥ h) := by
  rw [value_around ha, dotProduct_smul, mulVec_smul, dotProduct_smul, smul_dotProduct]
  simp only [smul_eq_mul]
  ring

/-- A square matrix and a right-hand side make up the quadratic problem of the symmetric part. -/
theorem ofTensors_lift : ofTensors (.ofMatrix (liftMatrix a)) (.ofVector (lift b)) =
    .ok ⟨n, ⟨liftMatrix (symmetricPart a), lift b⟩⟩ := by
  have hshape : (Tensor.ofMatrix (liftMatrix a)).shape = [n, n] := rfl
  simp [ofTensors, hshape, ofMatrix]

theorem expands {a : SquareMatrix K n} (ha : a.IsSymm) :
    (⟨liftMatrix a, lift b⟩ : Quadratic (Exact K) n).problem.Expands x
      (1 / 2 * (x ⬝ᵥ a *ᵥ x) - b ⬝ᵥ x) (a *ᵥ x - b) fun h t => t ^ 2 / 2 * (h ⬝ᵥ a *ᵥ h) where
  value := congrArg Except.ok (value_lift a b x)
  gradient := congrArg Except.ok (gradient_lift a b x)
  along h t := by
    rw [← value_along b x h t ha]
    exact congrArg Except.ok (value_lift a b (x + t • h))

end Quadratic

namespace Himmelblau
variable (x h : Fin 2 → K) (t : K)

def field : K := (x 0 * x 0 + x 1 - 11) ^ 2 + (x 0 + x 1 * x 1 - 7) ^ 2

def slopes : Fin 2 → K :=
  ![4 * x 0 * (x 0 * x 0 + x 1 - 11) + (2 : ℕ) * (x 0 + x 1 * x 1 - 7),
    (2 : ℕ) * (x 0 * x 0 + x 1 - 11) + 4 * x 1 * (x 0 + x 1 * x 1 - 7)]

theorem value_lift : problem.value (lift x) = .ok (number (field x)) := by
  have h11 : (11.0 : K) = 11 := by norm_num
  have h7 : (7.0 : K) = 7 := by norm_num
  simp [problem, value, first, second, field, h11, h7, pow_two]

theorem gradient_lift : problem.gradient (lift x) = .ok (lift (slopes x)) := by
  refine congrArg Except.ok (Vector.ext fun i hi => ?_)
  interval_cases i <;> norm_num [gradient, first, second, slopes]

/-- The terms of higher order: the values of the two squares change by a slope and a square each. -/
theorem field_along : ∃ r₂ r₃ r₄ : (Fin 2 → K) → K, ∀ h t, field (x + t • h) =
    field x + t * (slopes x ⬝ᵥ h) + (t ^ 2 * r₂ h + t ^ 3 * r₃ h + t ^ 4 * r₄ h) := by
  let u := fun h : Fin 2 → K => 2 * x 0 * h 0 + h 1
  let w := fun h : Fin 2 → K => h 0 + 2 * x 1 * h 1
  let r₂ := fun h => u h ^ 2 + 2 * (x 0 * x 0 + x 1 - 11) * h 0 ^ 2 + w h ^ 2 +
    2 * (x 0 + x 1 * x 1 - 7) * h 1 ^ 2
  let r₃ := fun h => 2 * u h * h 0 ^ 2 + 2 * w h * h 1 ^ 2
  let r₄ := fun h : Fin 2 → K => h 0 ^ 4 + h 1 ^ 4
  refine ⟨r₂, r₃, r₄, fun h t => ?_⟩
  simp only [field, slopes, u, w, r₂, r₃, r₄, Pi.add_apply, Pi.smul_apply, smul_eq_mul, dotProduct,
    Fin.sum_univ_two, Matrix.cons_val_zero, Matrix.cons_val_one, Nat.cast_ofNat]
  ring

theorem expands : ∃ r₂ r₃ r₄ : (Fin 2 → K) → K,
    problem.Expands x (field x) (slopes x) fun h t =>
      t ^ 2 * r₂ h + t ^ 3 * r₃ h + t ^ 4 * r₄ h := by
  obtain ⟨r₂, r₃, r₄, halong⟩ := field_along x
  exact ⟨r₂, r₃, r₄, value_lift x, gradient_lift x, fun h t => by rw [value_lift, halong h t]⟩

end Himmelblau

/-! Sequences and matrices that are put together from the links of a chain of coordinates. -/
namespace Chain
variable {m : ℕ} (s : Fin m → K) (d h : Fin (m + 1) → K)

/-- What every link gives to the coordinate that it starts at. -/
def starting : Fin (m + 1) → K := Fin.snoc s 0

/-- What every link gives to the coordinate that it ends at. -/
def ending : Fin (m + 1) → K := Fin.cons 0 s

/-- What every link gives to its two coordinates together, above the diagonal. -/
def linking : SquareMatrix K (m + 1) := ∑ i, Matrix.single i.castSucc i.succ (s i)

def tridiagonal : SquareMatrix K (m + 1) := diagonal d + (linking s + (linking s)ᵀ)

theorem starting_apply (j : Fin (m + 1)) :
    starting s j = if hj : j.val < m then s ⟨j, hj⟩ else 0 := by
  simp [starting, Fin.snoc]
  rfl

theorem ending_apply (j : Fin (m + 1)) :
    ending s j = if hj : 0 < j.val then s ⟨j.val - 1, by omega⟩ else 0 := by
  cases j using Fin.cases <;> simp [ending]

theorem linking_apply (j k : Fin (m + 1)) :
    linking s j k = if hjk : j.val + 1 = k.val then s ⟨j, by omega⟩ else 0 := by
  rw [linking, Matrix.sum_apply]
  cases j using Fin.lastCases with
  | last =>
    have hk : ¬ m + 1 = k.val := by omega
    simp [hk]
  | cast p =>
    cases k using Fin.cases with
    | zero => simp
    | succ q => simp [Matrix.single_apply, ite_and, Fin.val_inj]

theorem tridiagonal_apply (j k : Fin (m + 1)) : tridiagonal s d j k =
    if j = k then d j else if hjk : j.val + 1 = k.val then s ⟨j, by omega⟩
    else if hkj : k.val + 1 = j.val then s ⟨k, by omega⟩ else 0 := by
  have hsum : tridiagonal s d j k = diagonal d j k + (linking s j k + linking s k j) := rfl
  rw [hsum, linking_apply, linking_apply]
  rcases eq_or_ne j k with rfl | hne
  · simp
  · rw [if_neg hne, diagonal_apply_ne _ hne, zero_add]
    split_ifs with hjk hkj
    · omega
    · exact add_zero _
    · exact zero_add _
    · exact add_zero _

theorem isSymm_tridiagonal : (tridiagonal s d).IsSymm :=
  (isSymm_diagonal d).add (isSymm_add_transpose_self _)

theorem starting_dotProduct : starting s ⬝ᵥ h = ∑ i, s i * h i.castSucc := by
  simp [starting, dotProduct, Fin.sum_univ_castSucc]

theorem ending_dotProduct : ending s ⬝ᵥ h = ∑ i, s i * h i.succ := by
  simp [ending, dotProduct, Fin.sum_univ_succ]

theorem dotProduct_linking_mulVec :
    h ⬝ᵥ linking s *ᵥ h = ∑ i, s i * (h i.castSucc * h i.succ) := by
  rw [linking, Matrix.sum_mulVec, dotProduct_sum]
  apply Finset.sum_congr rfl
  intro i _
  rw [Matrix.single_mulVec_eq, dotProduct_smul, dotProduct_single_one, smul_eq_mul]
  ring

theorem dotProduct_tridiagonal_mulVec : h ⬝ᵥ tridiagonal s d *ᵥ h =
    (d ⬝ᵥ fun j => h j * h j) + 2 * ∑ i, s i * (h i.castSucc * h i.succ) := by
  have hdiagonal : h ⬝ᵥ diagonal d *ᵥ h = d ⬝ᵥ fun j => h j * h j := by
    apply Finset.sum_congr rfl
    intro j _
    rw [mulVec_diagonal, mul_left_comm]
  rw [tridiagonal, add_mulVec, add_mulVec, dotProduct_add, dotProduct_add, hdiagonal,
    dotProduct_transpose_mulVec, dotProduct_linking_mulVec, two_mul]

end Chain

namespace Rosenbrock
open Chain
variable {m : ℕ}

section Terms
variable (a b u w t : K)

/-- The term of a link from `a` to `b`, and what it gives to the derivatives. -/
def link : K := 100 * ((b - a * a) * (b - a * a)) + (1 - a) * (1 - a)

def startSlope : K := -400 * a * (b - a * a) - (2 : ℕ) * (1 - a)

def endSlope : K := 200 * (b - a * a)

def startBend : K := 1200 * (a * a) - 400 * b + (2 : ℕ)

theorem link_along : link (a + t * u) (b + t * w) =
    link a b + t * (startSlope a b * u + endSlope a b * w) +
      t ^ 2 / 2 * (startBend a b * (u * u) + 200 * (w * w) + 2 * (-400 * a * (u * w))) +
      t ^ 3 * (-200 * u ^ 2 * (w - 2 * a * u)) + t ^ 4 * (100 * u ^ 4) := by
  simp only [link, startSlope, endSlope, startBend, Nat.cast_ofNat]
  ring

end Terms

section Sums
variable (x h : Fin (m + 1) → K) (t : K)

def field : K := ∑ i : Fin m, link (x i.castSucc) (x i.succ)

def slopes : Fin (m + 1) → K :=
  starting (fun i : Fin m => startSlope (x i.castSucc) (x i.succ)) +
    ending fun i : Fin m => endSlope (x i.castSucc) (x i.succ)

def bends : Fin (m + 1) → K :=
  starting (fun i : Fin m => startBend (x i.castSucc) (x i.succ)) + ending fun _ : Fin m => 200

def curvature : SquareMatrix K (m + 1) :=
  tridiagonal (fun i : Fin m => -400 * x i.castSucc) (bends x)

theorem isSymm_curvature : (curvature x).IsSymm := isSymm_tridiagonal _ _

theorem slopes_dotProduct : slopes x ⬝ᵥ h = ∑ i : Fin m,
    (startSlope (x i.castSucc) (x i.succ) * h i.castSucc +
      endSlope (x i.castSucc) (x i.succ) * h i.succ) := by
  rw [slopes, add_dotProduct, starting_dotProduct, ending_dotProduct, Finset.sum_add_distrib]

theorem dotProduct_curvature_mulVec : h ⬝ᵥ curvature x *ᵥ h = ∑ i : Fin m,
    (startBend (x i.castSucc) (x i.succ) * (h i.castSucc * h i.castSucc) +
      200 * (h i.succ * h i.succ) + 2 * (-400 * x i.castSucc * (h i.castSucc * h i.succ))) := by
  rw [curvature, dotProduct_tridiagonal_mulVec, bends, add_dotProduct, starting_dotProduct,
    ending_dotProduct, Finset.mul_sum, ← Finset.sum_add_distrib, ← Finset.sum_add_distrib]

/-- The expansion, link by link. -/
theorem field_along : ∃ r₃ r₄ : (Fin (m + 1) → K) → K, ∀ h t, field (x + t • h) =
    field x + t * (slopes x ⬝ᵥ h) +
      (t ^ 2 / 2 * (h ⬝ᵥ curvature x *ᵥ h) + t ^ 3 * r₃ h + t ^ 4 * r₄ h) := by
  let r₃ := fun h : Fin (m + 1) → K =>
    ∑ i : Fin m, -200 * h i.castSucc ^ 2 * (h i.succ - 2 * x i.castSucc * h i.castSucc)
  let r₄ := fun h : Fin (m + 1) → K => ∑ i : Fin m, 100 * h i.castSucc ^ 4
  refine ⟨r₃, r₄, fun h t => ?_⟩
  have hterm : ∀ j, (x + t • h) j = x j + t * h j := fun _ => rfl
  rw [slopes_dotProduct, dotProduct_curvature_mulVec]
  simp only [field, r₃, r₄, hterm, link_along, Finset.sum_add_distrib, ← Finset.mul_sum]
  ring

end Sums

section Model
variable (x : Fin (m + 1) → K)

@[simp] theorem height_lift (i : ℕ) (hi : i + 1 < m + 1) : height (lift x) i hi =
    number (x ⟨i + 1, hi⟩ - x ⟨i, by omega⟩ * x ⟨i, by omega⟩) := by
  simp [height]

theorem value_lift : problem.value (lift x) = .ok (number (field x)) := by
  have hterms : (Vector.ofFn fun i : Fin m => term (lift x) i.val (by omega)) =
      lift fun i : Fin m => link (x i.castSucc) (x i.succ) := by
    ext i hi
    norm_num [term, link]
  exact congrArg Except.ok ((congrArg Vector.sum hterms).trans (sum_lift _))

theorem gradient_lift : problem.gradient (lift x) = .ok (lift (slopes x)) := by
  refine congrArg Except.ok (Vector.ext fun i hi => ?_)
  by_cases hstart : i < m <;> by_cases hend : 0 < i <;>
    simp [gradient, slopes, starting_apply, ending_apply, startSlope, endSlope, hstart, hend,
      -Fin.val_pos_iff] <;>
    norm_num

theorem diagonal_lift (i : Fin (m + 1)) : diagonal (lift x) i = number (bends x i) := by
  by_cases hstart : i.val < m <;> by_cases hend : 0 < i.val <;>
    simp [diagonal, bends, starting_apply, ending_apply, startBend, hstart, hend,
      -Fin.val_pos_iff] <;>
    norm_num

theorem hessian_lift : problem.hessian (lift x) = .ok (liftMatrix (curvature x)) := by
  have hlink : ∀ i : Fin (m + 1), -400.0 * (lift x).get i = number (-400 * x i) := by
    intro i
    have h400 : (400.0 : K) = 400 := by norm_num
    simp [h400]
  refine congrArg Except.ok (Vector.ext fun i hi => Vector.ext fun j hj => ?_)
  rw [getElem_liftMatrix, getElem_lift, curvature, tridiagonal_apply, hessian, Matrix.getElem_ofFn]
  split_ifs
  · exact diagonal_lift x _
  · exact hlink _
  · exact hlink _
  · rfl

theorem expands : ∃ r₃ r₄ : (Fin (m + 1) → K) → K,
    problem.Expands x (field x) (slopes x) fun h t =>
      t ^ 2 / 2 * (h ⬝ᵥ curvature x *ᵥ h) + t ^ 3 * r₃ h + t ^ 4 * r₄ h := by
  obtain ⟨r₃, r₄, halong⟩ := field_along x
  exact ⟨r₃, r₄, value_lift x, gradient_lift x, fun h t => by rw [value_lift, halong h t]⟩

end Model

omit [ExactField K] in
theorem checkDimension_of_two_le (hn : 2 ≤ n) :
    (checkDimension n : Except (Fault (Exact K)) ℕ) = .ok n := by
  rw [checkDimension, if_neg (by omega), Int.toNat_natCast]

end Rosenbrock

/-- The derivatives of the reference problems are the true ones: the value along a line is that of
the tangent with the stated gradient, of the curvature with the stated Hessian, and of terms of
third and fourth order in the step. Of the function of Himmelblau only the gradient is stated. A
quadratic problem has no further terms, and may be set up from a matrix that is not symmetric. -/
theorem reference_problems_expand :
    (∀ n : ℕ, 2 ≤ n → (Rosenbrock.checkDimension n : Except (Fault (Exact K)) ℕ) = .ok n ∧
      ∀ x : Fin n → K, ∃ (v : K) (g : Fin n → K) (a : SquareMatrix K n) (r₃ r₄ : (Fin n → K) → K),
        Rosenbrock.problem.Expands x v g (fun h t =>
          t ^ 2 / 2 * (h ⬝ᵥ a *ᵥ h) + t ^ 3 * r₃ h + t ^ 4 * r₄ h) ∧
        Rosenbrock.problem.hessian (lift x) = .ok (liftMatrix a) ∧ a.IsSymm) ∧
    (∀ x : Fin 2 → K, ∃ (v : K) (g : Fin 2 → K) (r₂ r₃ r₄ : (Fin 2 → K) → K),
      Himmelblau.problem.Expands x v g fun h t => t ^ 2 * r₂ h + t ^ 3 * r₃ h + t ^ 4 * r₄ h) ∧
    ∀ (n : ℕ) (m : SquareMatrix K n) (b : Fin n → K), ∃ q : Quadratic (Exact K) n,
      Quadratic.ofTensors (.ofMatrix (liftMatrix m)) (.ofVector (lift b)) = .ok ⟨n, q⟩ ∧
      ∀ x : Fin n → K, ∃ (v : K) (g : Fin n → K) (a : SquareMatrix K n),
        q.problem.Expands x v g (fun h t => t ^ 2 / 2 * (h ⬝ᵥ a *ᵥ h)) ∧
        q.problem.hessian (lift x) = .ok (liftMatrix a) := by
  refine ⟨?_, ?_, ?_⟩
  · intro n hn
    refine ⟨Rosenbrock.checkDimension_of_two_le hn, fun x => ?_⟩
    obtain ⟨m, rfl⟩ : ∃ m, n = m + 1 := ⟨n - 1, by omega⟩
    obtain ⟨r₃, r₄, hexpands⟩ := Rosenbrock.expands x
    exact ⟨_, _, _, r₃, r₄, hexpands, Rosenbrock.hessian_lift x, Rosenbrock.isSymm_curvature x⟩
  · intro x
    obtain ⟨r₂, r₃, r₄, hexpands⟩ := Himmelblau.expands x
    exact ⟨_, _, r₂, r₃, r₄, hexpands⟩
  · intro n m b
    refine ⟨_, Quadratic.ofTensors_lift m b, fun x => ?_⟩
    exact ⟨_, _, _, Quadratic.expands b x (isSymm_symmetricPart m), rfl⟩

/-- A point beside the valley floor in dimension three. -/
theorem reference_problems_expand_beside_valley :
    2 ≤ 3 ∧ ∃ (g : Fin 3 → ℚ) (a : SquareMatrix ℚ 3) (r₃ r₄ : (Fin 3 → ℚ) → ℚ),
      Rosenbrock.problem.Expands ![1, 2, 5] 201 g (fun h t =>
        t ^ 2 / 2 * (h ⬝ᵥ a *ᵥ h) + t ^ 3 * r₃ h + t ^ 4 * r₄ h) ∧
      Rosenbrock.problem.hessian (lift ![1, 2, 5]) = .ok (liftMatrix a) ∧ a.IsSymm := by
  have hthree : 2 ≤ 3 := by omega
  obtain ⟨-, hvalley⟩ := (reference_problems_expand (K := ℚ)).1 3 hthree
  obtain ⟨v, g, a, r₃, r₄, hexpands, hhessian⟩ := hvalley ![1, 2, 5]
  have hv : v = 201 := by
    have hnumber := Except.ok.inj ((Rosenbrock.value_lift _).symm.trans hexpands.value)
    rw [← Exact.number.inj hnumber]
    norm_num [Rosenbrock.field, Rosenbrock.link, Fin.sum_univ_two]
  subst hv
  exact ⟨hthree, g, a, r₃, r₄, hexpands, hhessian⟩

end Downhill
