import Downhill.Linear.Matrix

/-! Vectors and matrices taken apart at their first place, for eliminations that recur on the
size. -/
namespace Downhill
variable {α : Type} {n : Nat}

def first (v : Vector α (n + 1)) : α := v.get ⟨0, n.succ_pos⟩

def rest (v : Vector α (n + 1)) : Vector α n := Vector.ofFn fun i => v.get i.succ

def front (a : α) (v : Vector α n) : Vector α (n + 1) :=
  Vector.ofFn fun i => if h : i.val = 0 then a else v[i.val - 1]

@[simp] theorem first_eq (v : Vector α (n + 1)) : first v = v[0] := rfl

@[simp] theorem getElem_rest (v : Vector α (n + 1)) (i : Nat) (hi : i < n) :
    (rest v)[i] = v[i + 1] := by simp [rest]

@[simp] theorem getElem_front_zero (a : α) (v : Vector α n) : (front a v)[0] = a := by
  simp [front]

@[simp] theorem getElem_front_succ (a : α) (v : Vector α n) (i : Nat) (hi : i + 1 < n + 1) :
    (front a v)[i + 1] = v[i] := by
  unfold front
  rw [Vector.getElem_ofFn]
  simp

@[simp] theorem rest_front (a : α) (v : Vector α n) : rest (front a v) = v := by
  ext i hi; simp

/-- The lower triangular matrix with `d` in the corner, `column` below it and `l` in the rest. -/
def Matrix.bordered [Zero α] (d : α) (column : Vector α n) (l : Matrix α n) : Matrix α (n + 1) :=
  front (front d (Vector.replicate n 0)) (Vector.ofFn fun i => front (column.get i) (l.get i))

end Downhill
