import Downhill.Proofs.Linear.Cholesky

/-! Factorizations of shifted matrices. Every factor that is found can be solved with, also where a
shift is no number; and a positive definite matrix is not shifted. -/
open Matrix

namespace Downhill
variable {K : Type} [ExactField K] {n : ℕ}

open Exact

section Bordered
variable {α : Type} [Zero α] (d : α) (column : Vector α n) (l : Matrix α n)

theorem get_bordered_zero :
    (Matrix.bordered d column l).get 0 = front d (Vector.replicate n 0) :=
  getElem_front_zero ..

theorem get_bordered_succ (i : Fin n) :
    (Matrix.bordered d column l).get i.succ = front (column.get i) (l.get i) := by
  refine (getElem_front_succ _ _ i.val (Nat.succ_lt_succ i.isLt)).trans ?_
  rw [Vector.getElem_ofFn]

end Bordered

section Undefined
variable {d : Exact K} {column : Vector (Exact K) n}

/-- A system is solved if its first equation is used first and no values are left after that. -/
theorem exists_eliminate_of_blank {system : Vector (Equation (Exact K) (n + 1)) (n + 1)}
    (hd : d = infinity false ∨ d = undefined) (hfirst : first (system.get 0).coefficients = d)
    (hothers : ∀ i : Fin n, first (system.get i.succ).coefficients = 0 ∨
      first (system.get i.succ).coefficients = undefined)
    (hclear : ∀ i j : Fin n, first (system.get i.succ).coefficients = undefined ∨
      (system.get 0).coefficients.get j.succ = undefined) :
    ∃ a x, eliminate? system = some (front a x) ∧ ∀ i, x.get i = undefined := by
  have hpivot : pivot system = 0 := by
    refine pivot_eq_zero fun i => ?_
    rw [hfirst]
    cases i using Fin.cases with
    | zero => rw [hfirst]; exact lt_irrefl _
    | succ i =>
      obtain rfl | rfl := hd <;> obtain h | h := hothers i <;> rw [h] <;> exact fun h => by cases h
  have hblank : Blank ((others system 0).map (system.get 0).reduceBy) := by
    refine blank_reduce fun i j hi => ?_
    obtain ⟨i, rfl⟩ := Fin.exists_succ_eq.mpr hi
    exact hclear i j
  obtain ⟨x, hx, hundefined⟩ := hblank.exists_eliminate
  refine ⟨_, x, eliminate_eq_some hpivot ?_ hx, hundefined⟩
  rw [hfirst]
  obtain rfl | rfl := hd <;> rfl

/-- A factor whose first column has no values below its corner can be solved with, and from the
second place on the solution has no values. -/
theorem exists_solveFactor_of_undefined (hd : d = infinity false ∨ d = undefined)
    (hcolumn : ∀ i, column.get i = undefined) (l : Matrix (Exact K) n)
    (b : Vector (Exact K) (n + 1)) : ∃ a x,
      solveFactor (Matrix.bordered d column l) b = .ok (front a x) ∧ ∀ i, x.get i = undefined := by
  let m := Matrix.bordered d column l
  have hzero : first (m.get 0) = d := by
    rw [get_bordered_zero]
    exact getElem_front_zero ..
  have hsucc : ∀ i : Fin n, first (m.get i.succ) = undefined := fun i => by
    rw [get_bordered_succ, ← hcolumn i]
    exact getElem_front_zero ..
  have hbeside : ∀ i : Fin n, (m.get 0).get i.succ = 0 := fun i => by
    rw [get_bordered_zero]
    exact (getElem_front_succ ..).trans (Vector.getElem_replicate ..)
  have hrow : ∀ (m : Matrix (Exact K) (n + 1)) (c : Vector (Exact K) (n + 1)) i,
      ((Vector.zipWith Equation.mk m c).get i).coefficients = m.get i := fun m c i => by simp
  have hturned : ∀ i j, ((Matrix.transpose m).get i).get j = (m.get j).get i := fun i j => by
    simp
  obtain ⟨y, hy⟩ : ∃ y, m.solve? b = some y := by
    have hfirst : first ((Vector.zipWith Equation.mk m b).get 0).coefficients = d := by
      rw [hrow, hzero]
    obtain ⟨a, y, hy, -⟩ := exists_eliminate_of_blank hd hfirst
      (fun i => .inr (by rw [hrow, hsucc])) fun i j => .inl (by rw [hrow, hsucc])
    exact ⟨_, hy⟩
  obtain ⟨a, x, hx, hundefined⟩ : ∃ a x, (Matrix.transpose m).solve? y = some (front a x) ∧
      ∀ i, x.get i = undefined := by
    refine exists_eliminate_of_blank hd ?_ (fun i => .inl ?_) fun i j => .inr ?_
    · rw [hrow]
      exact (hturned 0 0).trans hzero
    · rw [hrow]
      exact (hturned i.succ 0).trans (hbeside i)
    · rw [hrow]
      exact (hturned 0 j.succ).trans (hsucc j)
  have hsolve : m.solveFactored? b = some (front a x) := by
    rw [Matrix.solveFactored?, hy, Option.bind_some, hx]
  exact ⟨a, x, by rw [solveFactor, hsolve], hundefined⟩

/-- Where the corner is no number and the column below it has no values, neither has that of a
factor. -/
theorem exists_bordered_of_cholesky {m l : Matrix (Exact K) (n + 1)}
    (hcorner : Scalar.isFinite (first (first m)) = false)
    (hbelow : ∀ i : Fin n, first (m.get i.succ) = undefined) (h : m.cholesky? = some l) :
    ∃ (d : Exact K) (column : Vector (Exact K) n) (l' : Matrix (Exact K) n),
      l = Matrix.bordered d column l' ∧ (d = infinity false ∨ d = undefined) ∧
      ∀ i, column.get i = undefined := by
  simp only [Matrix.cholesky?] at h
  split_ifs at h with hpos
  obtain ⟨l', -, rfl⟩ := Option.map_eq_some_iff.mp h
  refine ⟨_, _, l', rfl, ?_, fun i => ?_⟩
  · generalize first (first m) = c at hcorner hpos
    cases c with
    | number c => cases hcorner
    | undefined => exact .inr rfl
    | infinity s =>
      cases s with
      | true => exact absurd rfl hpos
      | false => exact .inl rfl
  · have hdiv : ∀ a : Exact K, undefined / a = undefined := fun a => by cases a <;> rfl
    rw [Matrix.choleskyColumn, get_eq_getElem, Fin.getElem_fin, Vector.getElem_ofFn, hbelow, hdiv]

end Undefined

section Entries
variable (a : SquareMatrix K (n + 1)) {tau : Exact K} (htau : Scalar.isFinite tau = false)
include htau

/-- With a shift that is no number the corner is none. -/
theorem corner_shift : first (first ((liftMatrix a).shift tau)) = tau := by
  have hcorner : first (first ((liftMatrix a).shift tau)) = number (a 0 0) + tau * 1 := by simp
  rw [hcorner]
  cases tau with
  | number t => cases htau
  | undefined => rfl
  | infinity s =>
    change number (a 0 0) + scaled s 1 = infinity s
    rw [scaled, if_neg one_ne_zero, decide_eq_false (not_lt.mpr zero_le_one), Bool.bne_false]
    rfl

/-- Off the diagonal there are no values. -/
theorem below_shift (i : Fin n) : first (((liftMatrix a).shift tau).get i.succ) = undefined := by
  have hentry : first (((liftMatrix a).shift tau).get i.succ) = number (a i.succ 0) + tau * 0 := by
    simp [Fin.succ]
  rw [hentry]
  cases tau with
  | number t => cases htau
  | undefined => rfl
  | infinity s =>
    change number (a i.succ 0) + scaled s 0 = undefined
    rw [scaled, if_pos rfl]
    rfl

end Entries

/-- Every factor of a shifted matrix of numbers can be solved with, whatever the shift is; a finite
shift leads to finite solutions, and one that is not to solutions that are not, unless there is one
entry only. -/
theorem exists_solveFactor_of_cholesky [SoundRoot K] {a : SquareMatrix K n} {tau : Exact K}
    {l : Matrix (Exact K) n} (h : ((liftMatrix a).shift tau).cholesky? = some l) (b : Fin n → K) :
    ∃ x, solveFactor l (lift b) = .ok x ∧ (Scalar.isFinite tau = true → allFinite x = true) ∧
      (Scalar.isFinite tau = false → 1 < n → allFinite x = false) := by
  by_cases htau : ∃ t, tau = number t
  · obtain ⟨t, rfl⟩ := htau
    rw [shift_lift] at h
    obtain ⟨f, rfl, hf⟩ := exists_triangular h
    obtain ⟨x, hx, -⟩ := hf.exists_solveFactor b
    exact ⟨_, hx, fun _ => allFinite_lift x, nofun⟩
  have hinfinite : ¬ Scalar.isFinite tau = true := mt isFinite_iff.mp htau
  cases n with
  | zero => exact ⟨#v[], rfl, fun hfin => absurd hfin hinfinite, fun _ h => absurd h (by omega)⟩
  | succ n =>
    have hno : Scalar.isFinite tau = false := Bool.eq_false_iff.mpr hinfinite
    obtain ⟨d, column, l', rfl, hd, hcolumn⟩ := exists_bordered_of_cholesky
      (by rw [corner_shift a hno, hno]) (below_shift a hno) h
    obtain ⟨c, x, hx, hundefined⟩ := exists_solveFactor_of_undefined hd hcolumn l' (lift b)
    refine ⟨_, hx, fun hfin => absurd hfin hinfinite, fun _ hn =>
      Bool.eq_false_iff.mpr fun hfin => ?_⟩
    rw [allFinite, Vector.all_eq_true] at hfin
    have hsecond := hfin 1 hn
    rw [getElem_front_succ, show x[0] = undefined from hundefined ⟨0, by omega⟩] at hsecond
    cases hsecond

section Blank

/-- A matrix with a corner that is not at most zero and no values below it has a factor, if what is
left of it has one. -/
theorem exists_cholesky_of_below {m : Matrix (Exact K) (n + 1)} (hcorner : ¬ first (first m) ≤ 0)
    (hbelow : ∀ i : Fin n, first (m.get i.succ) = undefined)
    (hrest : ∀ r : Matrix (Exact K) n, (∀ i j, (r.get i).get j = undefined) →
      ∃ l, r.cholesky? = some l) : ∃ l, m.cholesky? = some l := by
  have hdiv : ∀ a : Exact K, undefined / a = undefined := fun a => by cases a <;> rfl
  have hsub : ∀ a : Exact K, a - undefined = undefined := fun a => by cases a <;> rfl
  obtain ⟨l, hl⟩ := hrest
    (Matrix.choleskyRest m (Matrix.choleskyColumn m (Scalar.sqrt (first (first m))))) fun i j => by
      simp only [Matrix.choleskyRest, Matrix.choleskyColumn, Matrix.ofFn, get_eq_getElem,
        Fin.getElem_fin, Vector.getElem_ofFn, Fin.eta]
      have hentry := hbelow i
      simp only [get_eq_getElem, Fin.getElem_fin] at hentry
      rw [hentry, hdiv]
      exact hsub _
  exact ⟨_, (if_neg hcorner).trans (congrArg (Option.map _) hl)⟩

theorem exists_cholesky_of_blank {m : Matrix (Exact K) n} (h : ∀ i j, (m.get i).get j = undefined) :
    ∃ l, m.cholesky? = some l := by
  induction n with
  | zero => exact ⟨_, rfl⟩
  | succ n ih =>
    have hcorner : first (first m) = undefined := h 0 0
    exact exists_cholesky_of_below (by rw [hcorner]; exact id) (fun i => h i.succ 0)
      fun r hr => ih hr

/-- A shift that is no number and not negative leads to a factor of any matrix of numbers. -/
theorem exists_cholesky_of_shift (a : SquareMatrix K n) {tau : Exact K}
    (htau : Scalar.isFinite tau = false) (hsign : ¬ tau < 0) :
    ∃ l, ((liftMatrix a).shift tau).cholesky? = some l := by
  cases n with
  | zero => exact ⟨_, rfl⟩
  | succ n =>
    refine exists_cholesky_of_below ?_ (below_shift a htau) fun r hr => exists_cholesky_of_blank hr
    rw [corner_shift a htau]
    cases tau with
    | number t => cases htau
    | undefined => exact id
    | infinity s => exact hsign

end Blank

theorem cholesky_of_tryShifts {α : Type} [Scalar α] {m l : Matrix α n} {beta growth used : α}
    {attempts : ℕ} {tau : α} (h : m.tryShifts beta growth attempts tau = some (l, used)) :
    (m.shift used).cholesky? = some l := by
  induction attempts generalizing tau with
  | zero => cases h
  | succ attempts ih =>
    rw [Matrix.tryShifts] at h
    cases hl : (m.shift tau).cholesky? with
    | some l' =>
      rw [hl] at h
      cases h
      exact hl
    | none =>
      rw [hl] at h
      exact ih h

/-- The shifts grow from numbers to numbers. -/
theorem isFinite_of_tryShifts {m l : Matrix (Exact K) n} {beta growth t : K} {used : Exact K}
    {attempts : ℕ}
    (h : m.tryShifts (number beta) (number growth) attempts (number t) = some (l, used)) :
    Scalar.isFinite used = true := by
  induction attempts generalizing t with
  | zero => cases h
  | succ attempts ih =>
    rw [Matrix.tryShifts] at h
    cases hl : (m.shift (number t)).cholesky? with
    | some l' =>
      rw [hl] at h
      cases h
      rfl
    | none =>
      rw [hl, Matrix.nextShift, number_mul, larger_number] at h
      exact ih h

/-- The least of some numbers is a number, and it lies above what lies below all of them. -/
theorem exists_foldl_least {as : List (Exact K)} (h : ∀ a ∈ as, ∃ x, a = number x) (y : K) :
    ∃ x, as.foldl Matrix.least (number y) = number x ∧
      ∀ z, z < x ↔ z < y ∧ ∀ a ∈ as, number z < a := by
  induction as generalizing y with
  | nil => exact ⟨y, rfl, fun z => by simp⟩
  | cons a as ih =>
    rw [List.forall_mem_cons] at h
    obtain ⟨⟨x, rfl⟩, has⟩ := h
    have hleast : Matrix.least (number y) (number x) = number (min y x) := by
      rcases le_total y x with hle | hle
      · rw [min_eq_left hle]
        exact if_pos hle
      · rw [min_eq_right hle]
        by_cases hle' : y ≤ x
        · rw [le_antisymm hle hle']
          exact if_pos (le_refl y)
        · exact (if_neg hle').trans (if_pos hle)
    obtain ⟨w, hw, hbelow⟩ := ih has (min y x)
    rw [List.foldl_cons, hleast]
    refine ⟨w, hw, fun z => ?_⟩
    rw [hbelow, lt_min_iff, List.forall_mem_cons, number_lt, and_assoc]

theorem exists_leastDiagonal (a : SquareMatrix K (n + 1)) :
    ∃ x, (liftMatrix a).leastDiagonal = number x ∧ ∀ z, z < x ↔ ∀ i, z < a i i := by
  have hdiagonal : (liftMatrix a).diagonal = lift fun i => a i i := by
    ext i hi
    simp
  have hentry : ∀ b ∈ (rest (lift fun i => a i i)).toList,
      ∃ i : Fin n, b = number (a i.succ i.succ) := by
    intro b hb
    obtain ⟨i, hi, rfl⟩ := Vector.mem_iff_getElem.mp (Vector.mem_toList_iff.mp hb)
    exact ⟨⟨i, hi⟩, by simp⟩
  rw [Matrix.leastDiagonal, hdiagonal, ← Vector.foldl_toList, first_eq, getElem_lift]
  obtain ⟨x, hx, hbelow⟩ := exists_foldl_least
    (fun b hb => (hentry b hb).elim fun _ h => ⟨_, h⟩) (a 0 0)
  refine ⟨x, hx, fun z => ?_⟩
  rw [hbelow, Fin.forall_fin_succ]
  refine and_congr_right fun _ => ⟨fun hall i => number_lt.mp (hall _ ?_), fun hall b hb => ?_⟩
  · rw [Vector.mem_toList_iff, Vector.mem_iff_getElem]
    exact ⟨i, i.isLt, by simp [Fin.succ]⟩
  · obtain ⟨i, rfl⟩ := hentry b hb
    exact number_lt.mpr (hall i)

/-- A matrix of numbers gets a factor that can be solved with, or the shifts are used up. Where the
parameters of the shifts are numbers so are the solutions. -/
theorem choleskyWithShift_cases [SoundRoot K] (hn : 0 < n) (a : SquareMatrix K n)
    (beta growth : Exact K) (attempts : ℤ) :
    (∃ l tau, (liftMatrix a).choleskyWithShift beta growth attempts = .ok (l, tau) ∧
      ∀ b : Fin n → K, ∃ x, solveFactor l (lift b) = .ok x ∧
        (Scalar.isFinite beta = true → Scalar.isFinite growth = true → allFinite x = true)) ∨
    (liftMatrix a).choleskyWithShift beta growth attempts =
      .error (.notPositiveDefinite attempts) := by
  cases n with
  | zero => exact absurd hn (Nat.lt_irrefl 0)
  | succ n =>
    obtain ⟨least, hleast, -⟩ := exists_leastDiagonal a
    simp only [Matrix.choleskyWithShift, Matrix.factorShifted, hleast]
    cases htry : (liftMatrix a).tryShifts beta growth attempts.toNat
      (Matrix.firstShift beta (number least)) with
    | none => exact .inr rfl
    | some found =>
      refine .inl ⟨found.1, found.2, rfl, fun b => ?_⟩
      obtain ⟨x, hx, hfin, -⟩ := exists_solveFactor_of_cholesky (cholesky_of_tryShifts htry) b
      refine ⟨x, hx, fun hbeta hgrowth => hfin ?_⟩
      obtain ⟨beta, rfl⟩ := isFinite_iff.mp hbeta
      obtain ⟨growth, rfl⟩ := isFinite_iff.mp hgrowth
      obtain ⟨t, ht⟩ : ∃ t, Matrix.firstShift (number beta) (number least) = number t := by
        unfold Matrix.firstShift
        split_ifs
        exacts [⟨0, rfl⟩, ⟨beta - least, number_sub⟩]
      rw [ht] at htry
      exact isFinite_of_tryShifts htry

/-- With numbers as parameters the shift that is used is a number, and the factor is one of
numbers. -/
theorem exists_triangular_of_shift [SoundRoot K] {a : SquareMatrix K n} {l : Matrix (Exact K) n}
    {beta growth tau : Exact K} {attempts : ℤ} (hbeta : Scalar.isFinite beta = true)
    (hgrowth : Scalar.isFinite growth = true)
    (h : (liftMatrix a).choleskyWithShift beta growth attempts = .ok (l, tau)) :
    ∃ t f, tau = number t ∧ l = liftMatrix f ∧ Triangular f := by
  cases n with
  | zero => cases h
  | succ n =>
    obtain ⟨least, hleast, -⟩ := exists_leastDiagonal a
    simp only [Matrix.choleskyWithShift, Matrix.factorShifted, hleast] at h
    obtain ⟨beta, rfl⟩ := isFinite_iff.mp hbeta
    obtain ⟨growth, rfl⟩ := isFinite_iff.mp hgrowth
    obtain ⟨first, hfirst⟩ : ∃ t, Matrix.firstShift (number beta) (number least) = number t := by
      unfold Matrix.firstShift
      split_ifs
      exacts [⟨0, rfl⟩, ⟨beta - least, number_sub⟩]
    rw [hfirst] at h
    cases htry : (liftMatrix a).tryShifts (number beta) (number growth) attempts.toNat
      (number first) with
    | none =>
      rw [htry] at h
      cases h
    | some found =>
      rw [htry] at h
      cases h
      obtain ⟨t, rfl⟩ := isFinite_iff.mp (isFinite_of_tryShifts htry)
      have hcholesky := cholesky_of_tryShifts htry
      rw [shift_lift] at hcholesky
      obtain ⟨f, rfl, hf⟩ := exists_triangular hcholesky
      exact ⟨t, f, rfl, rfl, hf⟩

/-- A positive definite matrix is factorized as it is. -/
theorem choleskyWithShift_of_pos [TrueRoot K] (hn : 0 < n) {a : SquareMatrix K n}
    (hsymm : a.IsSymm) (ha : ∀ v, v ≠ 0 → 0 < v ⬝ᵥ a *ᵥ v) (beta growth : Exact K) {attempts : ℤ}
    (hattempts : 1 ≤ attempts) :
    ∃ f, (liftMatrix a).choleskyWithShift beta growth attempts = .ok (liftMatrix f, 0) ∧
      Triangular f ∧ f * fᵀ = a := by
  cases n with
  | zero => exact absurd hn (Nat.lt_irrefl 0)
  | succ n =>
    obtain ⟨f, hf, htri, hprod⟩ := exists_cholesky hsymm ha
    obtain ⟨x, hleast, hx⟩ := exists_leastDiagonal a
    have hshift : Matrix.firstShift beta (number x) = 0 :=
      if_pos (number_lt.mpr ((hx 0).mpr (corner_pos ha)))
    have hstay : (liftMatrix a).shift 0 = liftMatrix a := by
      rw [zero_eq, shift_lift, zero_smul, add_zero]
    obtain ⟨k, hk⟩ : ∃ k, attempts.toNat = k + 1 := ⟨attempts.toNat - 1, by omega⟩
    refine ⟨f, ?_, htri, hprod⟩
    simp only [Matrix.choleskyWithShift, Matrix.factorShifted, hleast, hshift, hk,
      Matrix.tryShifts, hstay, hf]

end Downhill
