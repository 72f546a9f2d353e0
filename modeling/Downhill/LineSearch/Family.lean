import Downhill.LineSearch.Backtracking
import Downhill.LineSearch.Cubic
import Downhill.LineSearch.Bisection
import Downhill.LineSearch.MoreThuente.Search

/-! The line searches of the library as one type. -/
namespace Downhill

inductive LineSearch (α : Type) where
  /-- The contract without a search. -/
  | base
  | backtracking (s : Backtracking α)
  | cubic (s : CubicBacktracking α)
  | bisection (s : Bisection α)
  | moreThuente (s : MoreThuente α)
  deriving Repr, DecidableEq

namespace LineSearch
variable {α V M : Type} [Scalar α] [Space α V]

def name : LineSearch α → String
  | base => "LineSearch"
  | backtracking _ => "Backtracking"
  | cubic _ => "BacktrackingCubic"
  | bisection _ => "Bisection"
  | moreThuente _ => "MoreThuente"

def enforcesCurvature : LineSearch α → Bool
  | bisection s => s.wolfe
  | moreThuente _ => true
  | _ => false

def check : LineSearch α → Except (Fault α) Unit
  | base => .ok ()
  | backtracking s => s.check
  | cubic s => s.check
  | bisection s => s.check
  | moreThuente s => s.check

def search (s : LineSearch α) (o : Oracle α V M) (r : Ray α V) (asked : Option α) :
    Eval α V (Step α V) :=
  match s with
  | base => throw .abstract
  | backtracking s => s.search o r asked
  | cubic s => s.search o r asked
  | bisection s => s.search o r asked
  | moreThuente s => s.search o r asked

def machine (s : LineSearch α) : Search Unit α V M where
  name := s.name
  enforcesCurvature := s.enforcesCurvature
  run o r asked := s.search o r asked

def searcher (s : LineSearch α) : Searcher α V M := ⟨Unit, s.machine, ()⟩

end LineSearch

end Downhill
