import Downhill.Proofs.Linear.ShiftSequence
import Downhill.Proofs.Newton.Direction
import Downhill.Proofs.Newton.Motion

/-! The direction of Newton from beginning to end. The Hessian is made symmetric and factorized with
the first shift that makes it positive definite; the direction solves the equation with the shifted
matrix, and it is steepest descent where no shift does. -/
open Matrix

namespace Downhill

open Exact

namespace Newton

section Parts
variable {K : Type} [ExactField K] {n : ℕ} {s : Newton (Exact K)}
  {o : Oracle (Exact K) (Vector (Exact K) n) (Matrix (Exact K) n)}
  {x : Iterate (Exact K) (Vector (Exact K) n)} {h : SquareMatrix K n}
  {l l' : Ledger (Exact K) (Vector (Exact K) n)}

/-- With a factor the direction solves the two triangular systems, and the shift is recorded;
without one it is steepest descent, which is counted. -/
theorem perform_direction (ho : (o.hessian x.point).perform l = (.ok (liftMatrix h), l'))
    (st : State (Exact K)) :
    (∀ f tau, Curved.factor (liftMatrix (symmetricPart h)) s.beta s.growth s.attempts =
        .ok (f, tau) →
      ∃ l'', (s.direction o x).perform st l =
        (Curved.solve f (-x.gradient), st.record tau, l'')) ∧
    ∀ attempts, Curved.factor (liftMatrix (symmetricPart h)) s.beta s.growth s.attempts =
        .error (.notPositiveDefinite attempts) →
      ∃ l'', (s.direction o x).perform st l =
        (.ok (-x.gradient), { st with fallbacks := st.fallbacks + 1 }, l'') := by
  have hfinite : Curved.finite (liftMatrix h) = true := allFinite_liftMatrix h
  have hsymm : Curved.symmetrize (liftMatrix h) =
      (.ok (liftMatrix (symmetricPart h)) : Except (Fault (Exact K)) _) :=
    congrArg Except.ok (symmetrize_lift h)
  have hlift : (liftM (o.hessian x.point) : Act (State (Exact K)) _ _ _).perform st l =
      (.ok (liftMatrix h), st, l') := by
    change (Act.ofEval (o.hessian x.point)).perform st l = _
    rw [Act.perform_ofEval, ho]
  refine ⟨fun f tau hfactor => ?_, fun attempts hfactor => ?_⟩
  · simp only [direction, Act.perform_bind, hlift, hfinite, if_true, Act.perform_ofExcept, hsymm,
      hfactor, Act.perform_modifyState]
    split_ifs
    · simp only [Act.perform_bind, Act.perform_remark, Act.perform_ofExcept]
      exact ⟨_, rfl⟩
    · exact ⟨_, rfl⟩
  · simp only [direction, Act.perform_bind, hlift, hfinite, if_true, Act.perform_ofExcept, hsymm,
      hfactor, Act.perform_modifyState, Act.perform_remark]
    exact ⟨_, rfl⟩

end Parts

section Shifts
variable {K : Type} [ExactField K] [TrueRoot K] {n : ℕ} {beta growth : K} {attempts : ℤ}

/-- The factor without a shift is used for positive definite matrices only. -/
theorem exists_factor_zero_iff
    (hs : Newton.check ⟨number beta, number growth, attempts⟩ = .ok ())
    {a : SquareMatrix K (n + 1)} (ha : a.IsSymm) :
    (∃ f, Curved.factor (liftMatrix a) (number beta) (number growth) attempts = .ok (f, 0)) ↔
      PositiveForm a := by
  have hattempts : 1 ≤ attempts := attempts_of_check hs
  refine ⟨fun ⟨f, hfactor⟩ => ?_, fun hpos => ?_⟩
  · have hfound : (liftMatrix a).choleskyWithShift (number beta) (number growth) attempts =
        .ok (f, 0) := hfactor
    by_cases hsome : ∃ k, k < attempts.toNat ∧
        PositiveForm (a + shiftAt beta growth (smallestDiagonal a) k • 1)
    · classical
      obtain ⟨hk, hpos⟩ := Nat.find_spec hsome
      obtain ⟨f', hfirst, -, -⟩ := choleskyWithShift_of_first ha beta growth hk
        (fun j hj hno => Nat.find_min hsome hj ⟨hj.trans hk, hno⟩) hpos
      have hzero : shiftAt beta growth (smallestDiagonal a) (Nat.find hsome) = 0 := by
        have hshift := congrArg (Except.map Prod.snd) (hfirst.symm.trans hfound)
        exact number.inj (Except.ok.inj hshift)
      rwa [hzero, zero_smul, add_zero] at hpos
    · push Not at hsome
      cases hfound.symm.trans (choleskyWithShift_of_none ha beta growth attempts hsome)
  · obtain ⟨f, hfactor, -⟩ :=
      choleskyWithShift_of_pos n.succ_pos ha hpos (number beta) (number growth) hattempts
    exact ⟨_, hfactor⟩

end Shifts

section Direction
variable {K : Type} [ExactField K] [TrueRoot K] {n : ℕ}
  {o : Oracle (Exact K) (Vector (Exact K) (n + 1)) (Matrix (Exact K) (n + 1))}
  {x : Iterate (Exact K) (Vector (Exact K) (n + 1))}
  {l l' : Ledger (Exact K) (Vector (Exact K) (n + 1))}

/-- What the strategy answers at a finite Hessian `h` and a gradient `g`, in any state. With the
first of the shifts that are tried for which the symmetric part of the Hessian becomes positive
definite there is a factor, and the direction is the one solution of the equation of Newton for the
shifted matrix; the shift is kept, and counted unless it is zero. Where there is no such shift among
them the direction is steepest descent, which is counted, and the shift that was kept before stays.
No shift is used if and only if the symmetric part is positive definite as it is. -/
theorem compute_regularizes {beta growth : K} {attempts : ℤ}
    (hs : Newton.check ⟨number beta, number growth, attempts⟩ = .ok ())
    (h : SquareMatrix K (n + 1)) (g : Fin (n + 1) → K) (hx : x.gradient = lift g)
    (ho : (o.hessian x.point).perform l = (.ok (liftMatrix h), l')) (st : State (Exact K)) :
    let s : Newton (Exact K) := ⟨number beta, number growth, attempts⟩
    let a := symmetricPart h
    let shifted : ℕ → SquareMatrix K (n + 1) := fun k =>
      a + shiftAt beta growth (smallestDiagonal a) k • 1
    let answer := (s.strategy.compute o x).perform st l
    (∀ k : ℕ, k < attempts → PositiveForm (shifted k) → (∀ j < k, ¬ PositiveForm (shifted j)) →
      let tau := shiftAt beta growth (smallestDiagonal a) k
      ∃ f d, Curved.factor (liftMatrix a) s.beta s.growth s.attempts =
          .ok (liftMatrix f, number tau) ∧
        f.IsLowerTriangular ∧ f * fᵀ = shifted k ∧
        shifted k *ᵥ d = -g ∧ (∀ e, shifted k *ᵥ e = -g → e = d) ∧
        answer.1 = .ok (lift d) ∧
        answer.2.1 = ⟨if 0 < tau then st.regularizations + 1 else st.regularizations,
          st.fallbacks, number tau⟩) ∧
    ((∀ k : ℕ, k < attempts → ¬ PositiveForm (shifted k)) →
      answer.1 = .ok (lift (-g)) ∧
      answer.2.1 = ⟨st.regularizations, st.fallbacks + 1, st.lastShift⟩) ∧
    ((∃ f, Curved.factor (liftMatrix a) s.beta s.growth s.attempts = .ok (f, 0)) ↔
      PositiveForm a) := by
  intro s a shifted answer
  have hsymm : a.IsSymm := isSymm_symmetricPart h
  obtain ⟨hfound, hlost⟩ := perform_direction (s := s) ho st
  refine ⟨fun k hk hpos hfirst => ?_, fun hnone => ?_, exists_factor_zero_iff hs hsymm⟩
  · intro tau
    have htried : k < attempts.toNat := by omega
    obtain ⟨f, hfactor, htri, hprod⟩ :=
      choleskyWithShift_of_first hsymm beta growth htried hfirst hpos
    obtain ⟨d, hsolve, hd⟩ := htri.exists_solveFactor (-g)
    have hd : shifted k *ᵥ d = -g := by rw [← hd, hprod]
    obtain ⟨l'', hanswer⟩ := hfound _ _ hfactor
    refine ⟨f, d, hfactor, htri.lower, hprod, hd, fun e he => ?_, ?_, ?_⟩
    · exact hpos.eq_of_mulVec_eq (he.trans hd.symm)
    · rw [show answer = _ from hanswer, hx, neg_lift]
      exact hsolve
    · rw [show answer = _ from hanswer]
      have hcount : (0 : Exact K) < number tau ↔ 0 < tau := number_lt
      by_cases htau : 0 < tau
      · rw [if_pos htau]
        exact congrArg (State.mk · _ _) (if_pos (hcount.mpr htau))
      · rw [if_neg htau]
        exact congrArg (State.mk · _ _) (if_neg (mt hcount.mp htau))
  · have hfactor := choleskyWithShift_of_none hsymm beta growth attempts fun k hk =>
      hnone k (by omega)
    obtain ⟨l'', hanswer⟩ := hlost attempts hfactor
    rw [show answer = _ from hanswer, hx, neg_lift]
    exact ⟨rfl, rfl⟩

/-- At a Hessian whose symmetric part is `[[0, 1], [1, 0]]`, with base one and growth two, the first
shift is one and leaves the matrix singular; the second is two. -/
theorem compute_regularizes_swap :
    let h : SquareMatrix ℝ 2 := !![0, 2; 0, 0]
    let o : Oracle (Exact ℝ) (Vector (Exact ℝ) 2) (Matrix (Exact ℝ) 2) :=
      (Problem.ofFunctions (fun _ => 0) (fun _ => ![3, 0]) fun _ => h).oracle
    let x : Iterate (Exact ℝ) (Vector (Exact ℝ) 2) := ⟨lift 0, 0, lift ![3, 0]⟩
    let direction := fun attempts st =>
      ((Newton.mk (number 1) (number 2) attempts).strategy.compute o x).perform st {}
    (direction 2 fresh).1 = .ok (lift ![-2, 1]) ∧
    (direction 2 fresh).2.1 = ⟨1, 0, number 2⟩ ∧
    (direction 1 ⟨1, 0, number 2⟩).1 = .ok (lift ![-3, 0]) ∧
    (direction 1 ⟨1, 0, number 2⟩).2.1 = ⟨1, 1, number 2⟩ := by
  intro h o x direction
  have hcheck : ∀ attempts, 1 ≤ attempts →
      Newton.check ⟨number (1 : ℝ), number 2, attempts⟩ = .ok () := by
    intro attempts hattempts
    have hbase : ¬ number (1 : ℝ) ≤ 0 := fun hle => absurd (number_le.mp hle) (by norm_num)
    have hgrowth : ¬ number (2 : ℝ) ≤ 1 := fun hle => absurd (number_le.mp hle) (by norm_num)
    exact (if_neg hbase).trans ((if_neg hgrowth).trans (if_neg (not_lt.mpr hattempts)))
  have hpart : symmetricPart h = !![0, 1; 1, 0] := by
    ext i j
    fin_cases i <;> fin_cases j <;> norm_num [symmetricPart, h]
  have hleast : smallestDiagonal (symmetricPart h) = 0 := by
    refine eq_of_forall_lt_iff fun z => (lt_smallestDiagonal_iff _ z).trans ?_
    simp [hpart, Fin.forall_fin_two]
  have hone : shiftAt (1 : ℝ) 2 0 1 = 2 := by norm_num [shiftAt]
  have hfirst : symmetricPart h + shiftAt (1 : ℝ) 2 0 0 • 1 = !![1, 1; 1, 1] := by
    ext i j
    fin_cases i <;> fin_cases j <;> norm_num [hpart, shiftAt]
  have hsecond : symmetricPart h + shiftAt (1 : ℝ) 2 0 1 • 1 = !![2, 1; 1, 2] := by
    ext i j
    fin_cases i <;> fin_cases j <;> norm_num [hpart, hone]
  have hsingular : ¬ PositiveForm (symmetricPart h + shiftAt (1 : ℝ) 2 0 0 • 1) := by
    intro hpos
    have hform := hpos ![1, -1] fun hno => by simpa using congrFun hno 0
    rw [hfirst] at hform
    simp [Matrix.mulVec, dotProduct, Fin.sum_univ_two] at hform
  have hdefinite : PositiveForm (symmetricPart h + shiftAt (1 : ℝ) 2 0 1 • 1) := by
    intro v hv
    have hform : v ⬝ᵥ !![2, 1; 1, 2] *ᵥ v = v ⬝ᵥ v + (v 0 + v 1) * (v 0 + v 1) := by
      simp [Matrix.mulVec, dotProduct, Fin.sum_univ_two]
      ring
    rw [hsecond, hform]
    exact add_pos_of_pos_of_nonneg (dotProduct_self_pos hv) (mul_self_nonneg _)
  have hsolves : (symmetricPart h + shiftAt (1 : ℝ) 2 0 1 • 1) *ᵥ ![-2, 1] = -![3, 0] := by
    rw [hsecond]
    ext i
    fin_cases i <;> norm_num [Matrix.mulVec, vec2_dotProduct]
  have hheard : (o.hessian x.point).perform {} = (.ok (liftMatrix h), {}) := rfl
  obtain ⟨hfound, -, -⟩ := compute_regularizes (hcheck 2 (by norm_num)) h ![3, 0]
    (x := x) (o := o) rfl hheard fresh
  obtain ⟨-, hlost, -⟩ := compute_regularizes (hcheck 1 le_rfl) h ![3, 0]
    (x := x) (o := o) rfl hheard ⟨1, 0, number 2⟩
  rw [hleast] at hfound hlost
  obtain ⟨-, d, -, -, -, -, hunique, hdirection, hstate⟩ :=
    hfound 1 (by norm_num) hdefinite fun j hj => by
      obtain rfl : j = 0 := by omega
      exact hsingular
  obtain ⟨hsteepest, hcounted⟩ := hlost fun k hk => by
    obtain rfl : k = 0 := by omega
    exact hsingular
  refine ⟨hunique _ hsolves ▸ hdirection, ?_, ?_, hcounted⟩
  · refine hstate.trans ?_
    rw [hone, if_pos two_pos]
    rfl
  · refine hsteepest.trans ?_
    simp

end Direction

end Newton

end Downhill
