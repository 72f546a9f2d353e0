import Downhill.Linear.Space

/-! Central differences. Coordinate `i` moves by `eps * max(1, |x_i|)`; the formulas only use
the function that they are given, in whatever monad it is evaluated, so one definition serves
bare functions and counted evaluations. -/
namespace Downhill.Difference
variable {α : Type} [Scalar α] {n : Nat} {m : Type → Type} [Monad m]

/-- The step for functions and for gradients, the cube root of the rounding unit. -/
def defaultStep : α := 6.0554544523933395e-06

/-- The step for second differences of a function. -/
def defaultSecondStep : α := 1e-4

/-- The larger of one and a modulus; a modulus that is no number stays. -/
def atLeastOne (a : α) : α := if a ≤ 1 then 1 else a

/-- The moves of the coordinates of `x`. -/
def moves (eps : α) (x : Vector α n) : Vector α n := x.map fun a => eps * atLeastOne (Scalar.abs a)

omit [Monad m] in
@[simp] theorem getElem_moves (eps : α) (x : Vector α n) (i : Nat) (hi : i < n) :
    (moves eps x)[i] = eps * atLeastOne (Scalar.abs x[i]) := by simp [moves]

/-- The difference quotient across coordinate `i`. -/
def slope (f : Vector α n → m α) (eps : α) (x : Vector α n) (i : Fin n) : m α := do
  let h := (moves eps x).get i
  let up ← f (x + spike i h)
  let down ← f (x - spike i h)
  return (up - down) / (2.0 * h)

def gradient (f : Vector α n → m α) (eps : α) (x : Vector α n) : m (Vector α n) :=
  Vector.ofFnM (slope f eps x)

/-- The second difference in one coordinate, given the value in the middle. -/
def bend (f : Vector α n → m α) (eps : α) (x : Vector α n) (middle : α) (i : Fin n) : m α := do
  let h := (moves eps x).get i
  let up ← f (x + spike i h)
  let down ← f (x - spike i h)
  return (up - 2.0 * middle + down) / (h * h)

/-- The mixed second difference in two coordinates, from four corners. -/
def twist (f : Vector α n → m α) (eps : α) (x : Vector α n) (i j : Fin n) : m α := do
  let h := (moves eps x).get i
  let k := (moves eps x).get j
  let upUp ← f (x + spike i h + spike j k)
  let upDown ← f (x + spike i h - spike j k)
  let downUp ← f (x - spike i h + spike j k)
  let downDown ← f (x - spike i h - spike j k)
  return (upUp - upDown - downUp + downDown) / (4.0 * h * k)

/-- The Hessian by second differences of a function: the upper triangle is computed row by row
and mirrored. -/
def hessian (f : Vector α n → m α) (eps : α) (x : Vector α n) : m (Matrix α n) := do
  let middle ← f x
  let upper : Matrix α n ← Vector.ofFnM fun i => Vector.ofFnM fun j =>
    if j < i then pure 0
    else if i = j then bend f eps x middle i
    else twist f eps x i j
  return Matrix.ofFn fun i j => if j < i then (upper.get j).get i else (upper.get i).get j

/-- The difference quotient of a gradient across coordinate `i`: one column of the Hessian. -/
def column (g : Vector α n → m (Vector α n)) (eps : α) (x : Vector α n) (i : Fin n) :
    m (Vector α n) := do
  let h := (moves eps x).get i
  let up ← g (x + spike i h)
  let down ← g (x - spike i h)
  return (up - down).map (· / (2.0 * h))

/-- The Hessian by central differences of a gradient, made symmetric. -/
def hessianOfGradient (g : Vector α n → m (Vector α n)) (eps : α) (x : Vector α n) :
    m (Matrix α n) := do
  let columns ← Vector.ofFnM (column g eps x)
  return (Matrix.ofColumns columns).symmetrize

section Points
variable {β V M : Type} [Space α V] [Curved α V M]

omit [Scalar α] in
def width (x : V) : Nat := Space.size x / (Space.shape x).headD 0

omit [Curved α V M] in
/-- The answers on both sides of a point, which is moved at one place of its first extent. -/
def sides (f : V → m β) (eps : α) (x : V) (place : Nat) : m (β × β) := do
  let c := Space.coordinates x
  let h : Vector α (Space.size x) := Vector.ofFn fun k =>
    if k.val / width x = place then (moves eps c)[k] else 0
  let up ← f (Space.like x (c + h))
  let down ← f (Space.like x (c - h))
  return (up, down)

variable [MonadExcept (Fault α) m]

omit [Curved α V M] in
/-- The gradient at a point of any space, through its coordinates. The places of the first extent
are moved in turn, as often as there are entries: a point without extents has no place, and one with
several entries at a place has too few. -/
def gradientAt (f : V → m α) (eps : α) (x : V) : m V := do
  if (Space.shape x).isEmpty then throw .missingEntry
  else if 1 < width x then
    for place in List.range ((Space.shape x).headD 0) do
      discard (sides f eps x place)
    throw .missingEntry
  else
    return Space.like x (← gradient (fun v => f (Space.like x v)) eps (Space.coordinates x))

/-- The Hessian at a point of any space, from values. A second difference is a number only if the
point is a vector; at other points there is none, unless there is nothing to move. -/
def hessianAt (f : V → m α) (eps : α) (x : V) : m M := do
  if (Space.shape x).isEmpty then
    discard (f x)
    throw .missingEntry
  else if 1 < (Space.shape x).length ∧ 0 < Space.size x then
    discard (f x)
    discard (sides f eps x 0)
    throw .lengths
  else
    return Curved.square x (← hessian (fun v => f (Space.like x v)) eps (Space.coordinates x))

omit [Scalar α] [Curved α V M] in
/-- A gradient read as one column. -/
def columnOf (x g : V) : m (Vector α (Space.size x)) :=
  match Space.column? x g with
  | some c => return c
  | none => throw .lengths

/-- The Hessian at a point of any space, from gradients. -/
def hessianOfGradientAt (g : V → m V) (eps : α) (x : V) : m M := do
  if (Space.shape x).isEmpty then throw .missingEntry
  else if 1 < width x then
    for place in List.range ((Space.shape x).headD 0) do
      let (up, down) ← sides g eps x place
      discard (columnOf x (up - down))
    throw .missingEntry
  else
    let columns := fun v => do columnOf x (← g (Space.like x v))
    return Curved.square x (← hessianOfGradient columns eps (Space.coordinates x))

end Points

end Downhill.Difference
