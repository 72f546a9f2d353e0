import Downhill.Linear.Space

/-! Curvature pairs in a ring of fixed capacity. A new pair goes behind the newest one, and over the
oldest one when the ring is full. The pairs stand for an approximation of the inverse Hessian,
which is applied by the two-loop recursion. -/
namespace Downhill

/-- A step, the change of the gradient across it, and the reciprocal of their product. -/
structure CurvaturePair (α V : Type) where
  s : V
  y : V
  rho : α
  deriving Repr, DecidableEq

/-- A ring of `m` slots: `size` of them are in use, the oldest in slot `start`. -/
structure History (α : Type) (m : Nat) (V : Type) where
  threshold : α
  slots : Vector (CurvaturePair α V) m
  start : Nat
  size : Nat
  start_lt : start < m
  size_le : size ≤ m

namespace History
variable {α V : Type} [Scalar α] [Space α V] {m : Nat}

/-- An empty ring, whose rows have `n` entries. -/
def empty (n : Nat) (threshold : α) (h : 0 < m) : History α m V where
  threshold
  slots := Vector.replicate m ⟨Space.zeros n, Space.zeros n, 0⟩
  start := 0
  size := 0
  start_lt := h
  size_le := Nat.zero_le m

omit [Space α V] in
def defaultThreshold : α := 1e-12

def defaultMemory : Int := 10

/-- An empty ring for a capacity and a dimension that must both be positive. -/
def make (m n : Int) (threshold : α) : Except (Fault α) (History α m.toNat V) :=
  if h : 1 ≤ m then
    if 1 ≤ n then .ok (empty n.toNat threshold (by omega)) else .error (.setting .memoryDimension)
  else .error (.setting .memory)

omit [Scalar α] [Space α V] in
theorem pos (h : History α m V) : 0 < m := Nat.lt_of_le_of_lt (Nat.zero_le _) h.start_lt

/-- The slot of the pair of age `k`, counted from the oldest. -/
def slot (h : History α m V) (k : Nat) : Fin m := ⟨(h.start + k) % m, Nat.mod_lt _ h.pos⟩

/-- The pairs in use, oldest first. -/
def pairs (h : History α m V) : List (CurvaturePair α V) :=
  (List.range h.size).map fun k => h.slots[h.slot k]

omit [Scalar α] [Space α V] in
@[simp] theorem length_pairs (h : History α m V) : h.pairs.length = h.size := by simp [pairs]

/-- Makes room for a pair: the slot it goes to, and the ring in which that slot counts as the
newest. -/
def claim (h : History α m V) : Fin m × History α m V :=
  if hs : h.size < m then
    (h.slot h.size, { h with size := h.size + 1, size_le := hs })
  else
    (⟨h.start, h.start_lt⟩,
      { h with start := (h.start + 1) % m, start_lt := Nat.mod_lt _ h.pos })

def modifySlot (h : History α m V) (i : Fin m) (f : CurvaturePair α V → CurvaturePair α V) :
    History α m V :=
  { h with slots := h.slots.set i (f (h.slots.get i)) i.isLt }

/-- Writes a step and then a gradient change over the rows of a slot. One that does not fit its
row ends the writing. -/
def write (h : History α m V) (i : Fin m) (s y : V) : Except (Fault α) Unit × History α m V :=
  match Space.write? (h.slots.get i).s s with
  | none => (.error .lengths, h)
  | some s =>
    let h := h.modifySlot i fun p => { p with s }
    match Space.write? (h.slots.get i).y y with
    | none => (.error .lengths, h)
    | some y => (.ok (), h.modifySlot i fun p => { p with y })

/-- A product of a step and a gradient change admits the pair. -/
def admits (h : History α m V) (sy : α) : Bool := Scalar.isFinite sy && h.threshold < sy

/-- Stores an admitted pair. The ring has made room before the rows are written and before the
product is inverted, and either may fail. -/
def store (h : History α m V) (s y : V) (sy : α) : Except (Fault α) Bool × History α m V :=
  let (i, h) := h.claim
  match h.write i s y with
  | (.error f, h) => (.error f, h)
  | (.ok (), h) =>
    if sy == 0 then (.error .zeroDivision, h)
    else (.ok true, h.modifySlot i fun p => { p with rho := 1 / sy })

/-- Offers a pair; the answer says whether it was stored. -/
def push (h : History α m V) (s y : V) : Except (Fault α) Bool × History α m V :=
  match Space.product? s y with
  | .error f => (.error f, h)
  | .ok sy => if h.admits sy then h.store s y sy else (.ok false, h)

/-- The initial scaling `s·y / y·y` of the newest pair, one for an empty ring. -/
def gamma (h : History α m V) : α :=
  match h.pairs.getLast? with
  | none => 1
  | some p => 1 / (p.rho * Space.inner p.y p.y)

/-- The two loops, over the pairs from the newest to the oldest and back. -/
def twoLoop (gamma : α) : List (CurvaturePair α V) → V → V
  | [], q => gamma * q
  | p :: older, q =>
    let a := p.rho * Space.inner p.s q
    let r := twoLoop gamma older (q - a * p.y)
    let b := p.rho * Space.inner p.y r
    r + (a - b) * p.s

def apply (h : History α m V) (gradient : V) : V := -twoLoop h.gamma h.pairs.reverse gradient

/-- The gradient fits the rows in use; an empty ring takes any. -/
def applyCheck (h : History α m V) (gradient : V) : Except (Fault α) Unit :=
  match h.pairs.getLast? with
  | none => .ok ()
  | some p => Space.productCheck p.s gradient

/-- The same for a gradient that may not fit. -/
def applyTo (h : History α m V) (gradient : V) : Except (Fault α) V := do
  h.applyCheck gradient
  return h.apply gradient

def clear (h : History α m V) : History α m V :=
  { h with start := 0, size := 0, start_lt := h.pos, size_le := Nat.zero_le m }

omit [Scalar α] [Space α V] in
@[simp] theorem pairs_clear (h : History α m V) : h.clear.pairs = [] := rfl

end History

end Downhill
