import Downhill.Linear.Solve
import Downhill.Proofs.Exact.Matrix

/-! Elimination in exact arithmetic. A system of numbers whose matrix has no kernel is solved: the
largest leading coefficient is not zero, and the smaller system has no kernel either. Systems in
which no coefficient has a value are solved too, since nothing there is equal to zero. -/
open Matrix

namespace Downhill
variable {K : Type} [ExactField K] {n : ℕ}

open Exact

section Pivot

/-- The last of the largest that were met so far is as large as any of them. -/
theorem le_foldl_larger {ι : Type} (key : ι → K) (xs : List ι) (best : ι) :
    ∀ i ∈ best :: xs, key i ≤
      key (xs.foldl (fun best i => if key best < key i then i else best) best) := by
  induction xs generalizing best with
  | nil => simp
  | cons x xs ih =>
    intro i hi
    rw [List.foldl_cons]
    have hx := ih (if key best < key x then x else best)
    have hstep : key best ≤ key (if key best < key x then x else best) ∧
        key x ≤ key (if key best < key x then x else best) := by
      split_ifs with h
      exacts [⟨h.le, le_rfl⟩, ⟨le_rfl, not_lt.mp h⟩]
    rcases List.mem_cons.mp hi with rfl | hi
    · exact hstep.1.trans (hx _ List.mem_cons_self)
    rcases List.mem_cons.mp hi with rfl | hi
    · exact hstep.2.trans (hx _ List.mem_cons_self)
    · exact hx i (List.mem_cons_of_mem _ hi)

variable {k : ℕ} {system : Vector (Equation (Exact K) (n + 1)) (k + 1)}

theorem le_pivot {lead : Fin (k + 1) → K}
    (h : ∀ i, first (system.get i).coefficients = number (lead i)) (i : Fin (k + 1)) :
    |lead i| ≤ |lead (pivot system)| := by
  have hpivot : pivot system = (List.finRange (k + 1)).foldl
      (fun best i => if |lead best| < |lead i| then i else best) 0 := by
    simp only [pivot, h, abs_number, number_lt]
  rw [hpivot]
  exact le_foldl_larger (fun i => |lead i|) _ 0 i
    (List.mem_cons_of_mem _ (List.mem_finRange i))

/-- The first equation is used if no other one has a larger leading coefficient. -/
theorem pivot_eq_zero (h : ∀ i, ¬ Scalar.abs (first (system.get 0).coefficients) <
    Scalar.abs (first (system.get i).coefficients)) : pivot system = 0 := by
  rw [pivot]
  induction List.finRange (k + 1) with
  | nil => rfl
  | cons i is ih => rw [List.foldl_cons, if_neg (h i), ih]

end Pivot

/-- The place from which the equation in place `i` comes when the one in place `p` is taken out. -/
def other (p : Fin (n + 1)) (i : Fin n) : Fin (n + 1) := (others (Vector.ofFn id) p).get i

theorem other_eq (p : Fin (n + 1)) (i : Fin n) :
    other p i = if i.val + 1 = p.val then 0 else i.succ := by
  rw [other, others, get_eq_getElem, Fin.getElem_fin, Vector.getElem_ofFn]
  split_ifs
  · rw [first_eq, Vector.getElem_ofFn]
    rfl
  · rw [get_eq_getElem, Fin.getElem_fin, Vector.getElem_ofFn]
    rfl

theorem get_others {β : Type} (system : Vector β (n + 1)) (p : Fin (n + 1)) (i : Fin n) :
    (others system p).get i = system.get (other p i) := by
  rw [others, get_eq_getElem, Fin.getElem_fin, Vector.getElem_ofFn, other_eq]
  split_ifs <;> rfl

theorem exists_other {p i : Fin (n + 1)} (h : i ≠ p) : ∃ j, other p j = i := by
  cases i using Fin.cases with
  | zero =>
    have hp : p.val - 1 + 1 = p.val := by
      have hne : p.val ≠ 0 := fun h0 => h (Fin.ext h0.symm)
      omega
    exact ⟨⟨p.val - 1, by omega⟩, (other_eq _ _).trans (if_pos hp)⟩
  | succ j =>
    refine ⟨j, (other_eq _ _).trans (if_neg fun hj => h (Fin.ext ?_))⟩
    rw [Fin.val_succ, hj]

/-- A system of equations of the field. -/
def liftSystem (a : SquareMatrix K n) (b : Fin n → K) : Vector (Equation (Exact K) n) n :=
  Vector.ofFn fun i => ⟨lift (a i), number (b i)⟩

omit [ExactField K] in
theorem get_liftSystem (a : SquareMatrix K n) (b : Fin n → K) (i : Fin n) :
    (liftSystem a b).get i = ⟨lift (a i), number (b i)⟩ := by
  simp [liftSystem]

omit [ExactField K] in
theorem zipWith_lift (a : SquareMatrix K n) (b : Fin n → K) :
    Vector.zipWith Equation.mk (liftMatrix a) (lift b) = liftSystem a b := by
  refine Vector.ext fun i hi => ?_
  simp [liftSystem]

section Reduce
variable (a : SquareMatrix K (n + 1)) (b : Fin (n + 1) → K) (p : Fin (n + 1))

/-- The matrix of the system without the unknown in front, for which equation `p` is used. -/
def reduced : SquareMatrix K n := fun i j =>
  a (other p i) j.succ - vecHead (a (other p i)) / vecHead (a p) * a p j.succ

/-- The values of the system without the unknown in front. -/
def reducedValues : Fin n → K := fun i =>
  b (other p i) - vecHead (a (other p i)) / vecHead (a p) * b p

/-- The solution of a system, from that of the system without the unknown in front. -/
def extended (v : Fin n → K) : Fin (n + 1) → K :=
  Fin.cons ((b p - (fun j => a p j.succ) ⬝ᵥ v) / vecHead (a p)) v

variable {a b p}

theorem map_reduceBy (h : a p 0 ≠ 0) :
    (others (liftSystem a b) p).map ((liftSystem a b).get p).reduceBy =
      liftSystem (reduced a p) (reducedValues a b p) := by
  have hget : ∀ i (hi : i < n), (others (liftSystem a b) p)[i] =
      ⟨lift (a (other p ⟨i, hi⟩)), number (b (other p ⟨i, hi⟩))⟩ := fun i hi =>
    (get_others _ p ⟨i, hi⟩).trans (get_liftSystem a b _)
  refine Vector.ext fun i hi => ?_
  rw [Vector.getElem_map, hget, get_liftSystem, liftSystem, Vector.getElem_ofFn]
  simp only [Equation.reduceBy, first_eq, getElem_lift, Fin.mk_zero, number_div h, number_mul,
    number_sub]
  congr 1
  ext j hj
  simp [reduced, vecHead]

theorem front_leading (h : a p 0 ≠ 0) (v : Fin n → K) :
    front (((liftSystem a b).get p).leading (lift v)) (lift v) = lift (extended a b p v) := by
  have hrest : rest (lift (a p)) = lift fun j => a p j.succ := by
    ext i hi
    simp
  have hlead : ((liftSystem a b).get p).leading (lift v) =
      number ((b p - (fun j => a p j.succ) ⬝ᵥ v) / a p 0) := by
    rw [get_liftSystem, Equation.leading, hrest, dot_lift, number_sub, first_eq, getElem_lift]
    exact number_div h
  rw [hlead]
  ext i hi
  cases i with
  | zero => simp [extended, vecHead]
  | succ i =>
    rw [getElem_front_succ, getElem_lift, getElem_lift]
    rfl

/-- What solves the smaller system solves the system: equation `p` by the choice of the unknown in
front, and the others because they were reduced by it. -/
theorem mulVec_extended (h : a p 0 ≠ 0) {v : Fin n → K}
    (hv : reduced a p *ᵥ v = reducedValues a b p) : a *ᵥ extended a b p v = b := by
  have hrow : ∀ i, (a *ᵥ extended a b p v) i =
      a i 0 * ((b p - (fun j => a p j.succ) ⬝ᵥ v) / a p 0) + (fun j => a i j.succ) ⬝ᵥ v := by
    intro i
    simp [mulVec, dotProduct, Fin.sum_univ_succ, extended, vecHead]
  funext i
  rw [hrow]
  by_cases hi : i = p
  · rw [hi]
    field_simp
    ring
  · obtain ⟨j, rfl⟩ := exists_other hi
    have hj := congrFun hv j
    have hsplit : (reduced a p *ᵥ v) j = (fun k => a (other p j) k.succ) ⬝ᵥ v -
        a (other p j) 0 / a p 0 * ((fun k => a p k.succ) ⬝ᵥ v) := by
      simp only [mulVec, dotProduct, reduced, vecHead, sub_mul, Finset.sum_sub_distrib,
        Finset.mul_sum, mul_assoc]
    rw [hsplit, reducedValues, vecHead, vecHead] at hj
    rw [← sub_eq_zero] at hj ⊢
    rw [← hj]
    field_simp
    ring

/-- The smaller system has no kernel if the system has none. -/
theorem reduced_injective (h : a p 0 ≠ 0) (ha : ∀ v, a *ᵥ v = 0 → v = 0) :
    ∀ v, reduced a p *ᵥ v = 0 → v = 0 := by
  intro v hv
  have hzero : reduced a p *ᵥ v = reducedValues a 0 p := by
    rw [hv]
    funext i
    simp [reducedValues]
  have hext := ha _ (mulVec_extended h hzero)
  funext i
  exact congrFun hext i.succ

end Reduce

/-- A system without kernel is solved. -/
theorem exists_eliminate {a : SquareMatrix K n} (ha : ∀ v, a *ᵥ v = 0 → v = 0) (b : Fin n → K) :
    ∃ x, eliminate? (liftSystem a b) = some (lift x) ∧ a *ᵥ x = b := by
  induction n with
  | zero => exact ⟨Fin.elim0, by simp [eliminate?, lift], funext fun i => i.elim0⟩
  | succ n ih =>
    have hlead : ∀ i, first ((liftSystem a b).get i).coefficients = number (a i 0) := by
      intro i
      rw [get_liftSystem, first_eq, getElem_lift]
      rfl
    have hpivot : a (pivot (liftSystem a b)) 0 ≠ 0 := by
      intro hzero
      -- Otherwise the first column is zero, and the first unit vector is in the kernel.
      have hcolumn : a *ᵥ Pi.single 0 1 = 0 := by
        funext i
        have hi := le_pivot hlead i
        rw [hzero, abs_zero, abs_nonpos_iff] at hi
        simp [hi]
      have hone := congrFun (ha _ hcolumn) 0
      simp at hone
    obtain ⟨v, hv, hsolves⟩ := ih (reduced_injective hpivot ha)
      (reducedValues a b (pivot (liftSystem a b)))
    refine ⟨_, ?_, mulVec_extended hpivot hsolves⟩
    have hne :
        ¬ (first ((liftSystem a b).get (pivot (liftSystem a b))).coefficients == 0) = true := by
      rw [hlead]
      simp [hpivot]
    rw [eliminate?, if_neg hne, map_reduceBy hpivot, hv, Option.map_some, front_leading hpivot]

section Undefined

theorem eliminate_eq_some {system : Vector (Equation (Exact K) (n + 1)) (n + 1)}
    {p : Fin (n + 1)} {x : Vector (Exact K) n} (hp : pivot system = p)
    (hlead : (first (system.get p).coefficients == 0) = false)
    (hrest : eliminate? ((others system p).map (system.get p).reduceBy) = some x) :
    eliminate? system = some (front ((system.get p).leading x) x) := by
  rw [eliminate?, hp, if_neg (Bool.eq_false_iff.mp hlead), hrest]
  rfl

/-- A coefficient has no value after a reduction by an equation that lacks it, or of an equation
that lacks its leading one. -/
theorem get_reduceBy {p e : Equation (Exact K) (n + 1)} (j : Fin n)
    (h : first e.coefficients = undefined ∨ p.coefficients.get j.succ = undefined) :
    (p.reduceBy e).coefficients.get j = undefined := by
  have hsub : ∀ a : Exact K, a - undefined = undefined := fun a => by cases a <;> rfl
  have hmul : ∀ a : Exact K, a * undefined = undefined := fun a => by cases a <;> rfl
  have hmul' : ∀ a : Exact K, undefined * a = undefined := fun a => by cases a <;> rfl
  have hdiv : ∀ a : Exact K, undefined / a = undefined := fun a => by cases a <;> rfl
  rw [Equation.reduceBy, get_eq_getElem, Fin.getElem_fin, Vector.getElem_ofFn]
  obtain h | h := h
  · rw [h, hdiv, hmul', hsub]
  · rw [h, hmul, hsub]

/-- No coefficient has a value. -/
def Blank (system : Vector (Equation (Exact K) n) n) : Prop :=
  ∀ i j, (system.get i).coefficients.get j = undefined

theorem blank_reduce {system : Vector (Equation (Exact K) (n + 1)) (n + 1)} {p : Fin (n + 1)}
    (h : ∀ i (j : Fin n), i ≠ p → first (system.get i).coefficients = undefined ∨
      (system.get p).coefficients.get j.succ = undefined) :
    Blank ((others system p).map (system.get p).reduceBy) := by
  intro i j
  have hi : other p i ≠ p := by
    intro heq
    have hval := congrArg Fin.val heq
    rw [other_eq] at hval
    split_ifs at hval with hp
    · rw [← hp] at hval
      exact Nat.noConfusion hval
    · exact hp hval
  have hget : ((others system p).map (system.get p).reduceBy).get i =
      (system.get p).reduceBy (system.get (other p i)) := by
    rw [← get_others, get_eq_getElem, Fin.getElem_fin, Vector.getElem_map]
    rfl
  rw [hget]
  exact get_reduceBy j (h _ j hi)

/-- A system without values has a solution, and that has none either. -/
theorem Blank.exists_eliminate {system : Vector (Equation (Exact K) n) n} (h : Blank system) :
    ∃ x, eliminate? system = some x ∧ ∀ i, x.get i = undefined := by
  induction n with
  | zero => exact ⟨_, rfl, fun i => i.elim0⟩
  | succ n ih =>
    have hlead : ∀ i, first (system.get i).coefficients = undefined := fun i => h i 0
    have hp : pivot system = 0 := pivot_eq_zero fun i => by rw [hlead]; exact id
    obtain ⟨x, hx, hblank⟩ := ih (blank_reduce fun i j _ => .inl (hlead i))
    refine ⟨_, eliminate_eq_some hp (by rw [hlead]; rfl) hx, fun i => ?_⟩
    cases i using Fin.cases with
    | zero =>
      have hdiv : ∀ a : Exact K, a / undefined = undefined := fun a => by cases a <;> rfl
      refine (getElem_front_zero _ x).trans ?_
      rw [Equation.leading, hlead, hdiv]
    | succ i => exact (getElem_front_succ _ x i.val (Nat.succ_lt_succ i.isLt)).trans (hblank i)

end Undefined

end Downhill
