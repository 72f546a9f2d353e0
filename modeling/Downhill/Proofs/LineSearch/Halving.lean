import Downhill.Proofs.Exact.Vector
import Downhill.Proofs.LineSearch.Bisection
import Downhill.Proofs.LineSearch.Trials

/-! The rounds of the search by doubling and halving, on a problem with a number as the slope at the
start. Before every trial the lower end is the start or an earlier trial that decreased the value
sufficiently where the value still fell too steeply, an upper end is an earlier trial with a value
above the sufficient-decrease line, and the trial lies beyond the lower end and short of the upper
one. -/
namespace Downhill.Bisection
variable {K M : Type} [ExactField K] {n : ℕ} {s : Bisection (Exact K)}
  {p : Problem (Exact K) (Vector (Exact K) n) M} {r : Ray (Exact K) (Vector (Exact K) n)}
  {slope alpha : Exact K} {l : Ledger (Exact K) (Vector (Exact K) n)}

open Exact

/-- A search from the trial `alpha` begins round `k`, counted from zero, in the state `t`. -/
def Begins (s : Bisection (Exact K)) (p : Problem (Exact K) (Vector (Exact K) n) M)
    (r : Ray (Exact K) (Vector (Exact K) n)) (slope alpha : Exact K)
    (l : Ledger (Exact K) (Vector (Exact K) n)) (k : ℕ)
    (t : State (Exact K) (Vector (Exact K) n)) : Prop :=
  ∃ l', (upTo (s.attempt p.oracle.recorded r slope) k (initial alpha)).perform l =
    (.ok (.inl t), l')

/-- The constants of an accepted search are numbers. -/
structure Accepted (s : Bisection (Exact K)) (c1 c2 : K) : Prop where
  c1_eq : s.c1 = number c1
  c2_eq : s.c2 = number c2
  c1_pos : 0 < c1
  c1_lt : c1 < c2
  c2_lt : c2 < 1

theorem exists_accepted (h : s.check = .ok ()) : ∃ c1 c2, Accepted s c1 c2 := by
  obtain ⟨⟨h1, h1'⟩, h12, h2⟩ := check_eq_ok h
  obtain ⟨c1, hc1, hpos, -⟩ := exists_of_lt_lt h1 h1'
  obtain ⟨c2, hc2, hc12, hc2'⟩ := exists_of_lt_lt (hc1 ▸ h12) h2
  exact ⟨c1, c2, hc1, hc2, hpos, hc12, hc2'⟩

/-- A step that is too short: the start, or a positive step with sufficient decrease and a slope
below `c2 * m`. -/
inductive Short (p : Problem (Exact K) (Vector (Exact K) n) M)
    (r : Ray (Exact K) (Vector (Exact K) n)) (c1 c2 f0 m : K) : K → Prop
  | start : Short p r c1 c2 f0 m 0
  | trial {a f d : K} {g : Vector (Exact K) n} (pos : 0 < a)
      (value : p.value (r.along (number a)) = .ok (number f))
      (gradient : p.gradient (r.along (number a)) = .ok g)
      (slope : number d = dot g r.direction) (decrease : f ≤ f0 + c1 * a * m)
      (steep : d < c2 * m) : Short p r c1 c2 f0 m a

/-- A step that is too long: its value lies above the sufficient-decrease line. -/
def Long (p : Problem (Exact K) (Vector (Exact K) n) M) (r : Ray (Exact K) (Vector (Exact K) n))
    (c1 f0 m b : K) : Prop :=
  ∃ f, p.value (r.along (number b)) = .ok (number f) ∧ f0 + c1 * b * m < f

/-- The ends of the bracket, of which the upper one may be missing. -/
structure Brackets (p : Problem (Exact K) (Vector (Exact K) n) M)
    (r : Ray (Exact K) (Vector (Exact K) n)) (c1 c2 f0 m : K)
    (t : State (Exact K) (Vector (Exact K) n)) (a : K) : Prop where
  low_eq : t.low = number a
  short : Short p r c1 c2 f0 m a
  high : ∀ h, t.high = some h → ∃ b, h = number b ∧ a < b ∧ Long p r c1 f0 m b

/-- Before a trial its step lies beyond the lower end and short of the upper one. -/
def Ready (p : Problem (Exact K) (Vector (Exact K) n) M) (r : Ray (Exact K) (Vector (Exact K) n))
    (c1 c2 f0 m : K) (t : State (Exact K) (Vector (Exact K) n)) : Prop :=
  ∃ a c, Brackets p r c1 c2 f0 m t a ∧ t.alpha = number c ∧ a < c ∧
    ∀ b, t.high = some (number b) → c < b

variable {c1 c2 f0 m a b c f : K} {t : State (Exact K) (Vector (Exact K) n)}

theorem Short.nonneg (h : Short p r c1 c2 f0 m a) : 0 ≤ a := by
  cases h with
  | start => exact le_rfl
  | trial pos => exact pos.le

/-- A positive step without sufficient decrease is too long. -/
theorem line_lt_of_not_decrease (hc1 : 0 < c1) (hm : m < 0) (hc : 0 < c)
    (h : ¬ sufficientDecrease (number f) (number f0) (number c) (number m) (number c1) = true) :
    f0 + c1 * c * m < f := by
  have hline : c1 * c * m < 0 := mul_neg_of_pos_of_neg (mul_pos hc1 hc) hm
  rw [sufficientDecrease_iff, number_mul, number_mul, number_add, number_lt, number_le,
    not_and_or, not_lt, not_le] at h
  obtain hrise | habove := h
  · linarith
  · exact habove

/-- The next trial lies inside the bracket, or beyond a positive lower end. -/
theorem Brackets.ready_next (h : Brackets p r c1 c2 f0 m t a) (hpos : t.high = none → 0 < a) :
    Ready p r c1 c2 f0 m { t with alpha := nextStep t.low t.high } := by
  have hmoved : Brackets p r c1 c2 f0 m { t with alpha := nextStep t.low t.high } a :=
    ⟨h.low_eq, h.short, h.high⟩
  cases hhigh : t.high with
  | none =>
    have ha : 0 < a := hpos hhigh
    rw [hhigh] at hmoved
    refine ⟨a, 2.0 * a, hmoved, ?_, ?_, nofun⟩
    · simp [nextStep, h.low_eq]
    · norm_num
      linarith
  | some u =>
    obtain ⟨b, rfl, hab, -⟩ := h.high u hhigh
    rw [hhigh] at hmoved
    refine ⟨a, 0.5 * (a + b), hmoved, ?_, ?_, ?_⟩
    · simp [nextStep, h.low_eq]
    · norm_num
      linarith
    · rintro b' ⟨⟩
      norm_num
      linarith

theorem Brackets.advance (h : Brackets p r c1 c2 f0 m t a) (hpos : t.high = none → 0 < a) :
    Sum.elim (Ready p r c1 c2 f0 m) (fun _ => True) (s.advance r t) := by
  simp only [Bisection.advance]
  split_ifs
  · trivial
  · exact h.ready_next hpos

section Rounds
variable (hs : Accepted s c1 c2) (hm : m < 0) (hf0 : r.start.value = number f0)
  (hslope : dot r.start.gradient r.direction = number m)
include hs hm hf0 hslope

/-- A trial that goes on becomes one of the ends. -/
theorem yields_round (h : Ready p r c1 c2 f0 m t) :
    Yields (s.attempt p.oracle.recorded r (number m) t)
      (Sum.elim (Ready p r c1 c2 f0 m) fun _ => True) := by
  obtain ⟨a, c, hbrackets, htrial, hac, hcb⟩ := h
  have hc : 0 < c := hbrackets.short.nonneg.trans_lt hac
  refine .bind (yields_trialValue p.quiet_oracle _ _) fun u ⟨hu, hufin⟩ => ?_
  obtain ⟨f, rfl⟩ := isFinite_iff.mp hufin
  rw [htrial] at hu
  refine .ite (fun hdecrease => ?_) fun hdecrease => ?_
  · refine .bind (yields_trialGradient p.quiet_oracle _ _) fun g ⟨hg, hgfin⟩ => ?_
    obtain ⟨d, hd⟩ := exists_dot_eq hslope hgfin
    rw [htrial] at hg
    refine .ite (fun _ => .pure trivial) fun _ => ?_
    refine .bind (Eval.yields_ofExcept _) fun forward hforward => ?_
    obtain ⟨_, -, hforward⟩ := bind_eq_ok_iff.mp hforward
    obtain rfl := Except.ok.inj hforward
    refine .ite (fun _ => .pure trivial) fun hsteep => .pure ?_
    have hshort : Short p r c1 c2 f0 m c := by
      rw [htrial, hf0, hs.c1_eq] at hdecrease
      rw [hs.c2_eq, Space.inner_vector, hd, number_mul, number_le, not_le] at hsteep
      exact .trial hc hu hg hd.symm (sufficientDecrease_iff.mp hdecrease).2 hsteep
    refine Brackets.advance ⟨htrial, hshort, fun u hu => ?_⟩ fun _ => hc
    obtain ⟨b, rfl, -, hlong⟩ := hbrackets.high u hu
    exact ⟨b, rfl, hcb b hu, hlong⟩
  · rw [htrial, hf0, hs.c1_eq] at hdecrease
    have hlong : Long p r c1 f0 m c := ⟨f, hu, line_lt_of_not_decrease hs.c1_pos hm hc hdecrease⟩
    refine .pure (Brackets.advance ⟨hbrackets.low_eq, hbrackets.short, fun u hu => ?_⟩ ?_)
    · rw [htrial] at hu
      exact ⟨c, (Option.some.inj hu).symm, hac, hlong⟩
    · rw [htrial]
      nofun

theorem ready_of_begins (ha : 0 < a) {k : ℕ} (h : Begins s p r (number m) (number a) l k t) :
    Ready p r c1 c2 f0 m t := by
  have hinitial : Ready p r c1 c2 f0 m (initial (number a)) :=
    ⟨0, a, ⟨rfl, .start, nofun⟩, rfl, ha, nofun⟩
  have hrounds := Yields.upTo (fun _ ht => yields_round hs hm hf0 hslope ht) hinitial k l trivial
  obtain ⟨l', h⟩ := h
  have hrun : ((upTo (s.attempt p.oracle.recorded r (number m)) k
    (initial (number a))).run.run l).1 = .ok (.inl t) := congrArg Prod.fst h
  rw [hrun] at hrounds
  exact hrounds

end Rounds

end Downhill.Bisection
