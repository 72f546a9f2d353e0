import Mathlib
import Downhill.Logging.Registry

/-! The lines that remarks lead to. Every source of remarks has a logger from the beginning, so in
the standard format a remark is a line, with its level and its logger in front, if its level is high
enough, and nothing otherwise. -/
namespace Downhill

/-- A remark in the standard format. -/
def Remark.line (r : Remark Float) : String :=
  "[" ++ Level.label r.level ++ "] " ++ r.source.logger ++ ": " ++ r.text

theorem Remark.level_pos {α : Type} (r : Remark α) : 0 < r.level := by
  cases r <;> simp [level]

theorem Source.logger_injective : Function.Injective logger := by
  intro s s' h
  cases s <;> cases s' <;> first | rfl | exact absurd h (by decide)

namespace Format

theorem line?_standard (level : ℤ) (logger message : String) :
    standard.line? level logger message =
      some ("[" ++ Level.label level ++ "] " ++ logger ++ ": " ++ message) := by
  have hplace : ∀ f : Field, (Place.simple f).text? level logger message =
      some (f.text level logger message) := by
    intro f
    simp [Place.text?, Place.simple, Place.cut, Place.fill]
  have hparts : standard.mapM (pieceText? level logger message) =
      some ["[", Level.label level, "]", " ", logger, ":", " ", message] := by
    simp only [standard, List.mapM_cons, List.mapM_nil, pieceText?, hplace]
    rfl
  rw [line?, hparts]
  simp only [Option.map_some, String.join, List.foldl_cons, List.foldl_nil, String.empty_append]
  simp only [String.append_assoc]
  rfl

end Format

namespace Registry

theorem get_source (h : Handler) (s : Source) :
    ((initial.withHandlers h).get (some s.logger)).1 = ⟨s.logger, h.level, false, [h]⟩ := by
  cases s <;> rfl

/-- Nothing is lost between a remark and its line but the remarks below the level. -/
theorem linesAt_eq {level : ℤ} (hlevel : 0 < level) (remarks : List (Remark Float)) :
    linesAt level remarks = (remarks.filter fun r => level ≤ r.level).map Remark.line := by
  have hline : ∀ r : Remark Float,
      ((initial.withHandlers ⟨level, .standard, .standardError⟩).write (some r.source.logger)
        r.level r.text).1 = if level ≤ r.level then [(.standardError, r.line)] else [] := by
    intro r
    simp only [write, get_source, Logger.emit, Logger.threshold, if_neg hlevel.ne', r.level_pos,
      true_and]
    split_ifs with hr
    · simp [hr, Format.line?_standard, Remark.line]
    · rfl
  unfold linesAt remarkLines
  induction remarks with
  | nil => rfl
  | cons r remarks ih =>
    rw [List.flatMap_cons, List.map_append, ih, hline, List.filter_cons]
    by_cases hr : level ≤ r.level <;> simp [hr]

/-- The lines of one logger, from a level on. -/
def linesFrom (logger : String) (level : ℤ) (remarks : List (Remark Float)) : List String :=
  linesAt level (remarks.filter fun r => r.source.logger = logger)

theorem linesFrom_logger {level : ℤ} (hlevel : 0 < level) (s : Source)
    (remarks : List (Remark Float)) : linesFrom s.logger level remarks =
      ((remarks.filter (·.source = s)).filter fun r => level ≤ r.level).map Remark.line := by
  simp only [linesFrom, Source.logger_injective.eq_iff, linesAt_eq hlevel]

end Registry

end Downhill
