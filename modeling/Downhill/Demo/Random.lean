import Downhill.Demo.Showcase

/-! Random draws for the demonstration, all from one seed: normal ones by the method of Box and
Muller, and uniform ones between minus one and one. -/
namespace Downhill.Demo

/-- A number between zero and one, zero excluded, and the next state of the generator. -/
def unit (g : StdGen) : Float × StdGen :=
  let (k, g) := randNat g 1 (Nat.pow 2 30)
  (Float.ofNat k / Float.ofNat (Nat.pow 2 30), g)

def uniform (g : StdGen) : Float × StdGen :=
  let (u, g) := unit g
  (2.0 * u - 1.0, g)

def normal (g : StdGen) : Float × StdGen :=
  let (u, g) := unit g
  let (v, g) := unit g
  ((-2.0 * u.log).sqrt * (6.283185307179586 * v).cos, g)

def draw (one : StdGen → Float × StdGen) (n : Nat) : StateM StdGen (Vector Float n) :=
  Vector.ofFnM fun _ => StateT.mk fun g => one g

def draws : StateM StdGen Draws := do
  let normals ← Vector.ofFnM fun _ => draw normal 16
  let linear ← draw normal 16
  let start ← draw uniform 16
  let valleyStart ← draw uniform 2
  return ⟨normals, linear, start, valleyStart⟩

/-- The draws of the method that is number `k` in its row, for a seed. -/
def drawsFor (seed : Int) (k : Nat) : Draws :=
  ((List.range k).foldl (fun g _ => (draws.run g).2) (mkStdGen seed.natAbs) |> draws.run).1

end Downhill.Demo
