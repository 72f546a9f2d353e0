import Downhill.Logging.Format
import Downhill.Wording

/-! The loggers of the library. All live below one root name and are created on first use; a
logger has handlers of its own and passes nothing on to loggers above it. Setting the level
changes every logger, and the level of loggers that are created later. -/
namespace Downhill

/-- Where lines are written: standard error, or a stream of the caller's. -/
inductive Stream where
  | standardError
  | named (label : String)
  deriving Repr, DecidableEq

structure Handler where
  level : Int
  format : Format
  stream : Stream
  deriving Repr, DecidableEq

structure Logger where
  name : String
  level : Int
  propagate : Bool
  handlers : List Handler
  deriving Repr, DecidableEq

/-- The loggers in the order of their creation, and the level of the next one. -/
structure Registry where
  loggers : List Logger
  level : Int
  deriving Repr, DecidableEq

namespace Logger

def rootName : String := "optlib"

/-- The name that the demonstration asks a logger for. -/
def demonstration : String := "examples.solve_test_problems"

/-- The full name of a logger: names outside the library are put below the root. -/
def qualify : Option String → String
  | none => rootName
  | some name =>
    if name = rootName ∨ (rootName ++ ".").toList <+: name.toList then name
    else rootName ++ "." ++ name

def make (name : String) (level : Int) : Logger :=
  ⟨name, level, false, [⟨level, Format.standard, .standardError⟩]⟩

def setLevel (level : Int) (l : Logger) : Logger :=
  { l with level, handlers := l.handlers.map fun h => { h with level } }

def replaceHandlers (h : Handler) (l : Logger) : Logger :=
  { l with level := h.level, handlers := [h] }

/-- A logger of level zero has no level of its own and goes by warnings. -/
def threshold (l : Logger) : Int := if l.level = 0 then Level.warning else l.level

/-- The lines that a message leads to. Nothing is written at level zero or below. -/
def emit (l : Logger) (level : Int) (message : String) : List (Stream × String) :=
  if 0 < level ∧ l.threshold ≤ level then
    (l.handlers.filter (·.level ≤ level)).filterMap fun h =>
      (h.format.line? level l.name message).map fun line => (h.stream, line)
  else []

end Logger

namespace Registry

def empty : Registry := ⟨[], Level.warning⟩

def find? (r : Registry) (name : String) : Option Logger := r.loggers.find? (·.name == name)

def get (r : Registry) (name : Option String) : Logger × Registry :=
  let name := Logger.qualify name
  match r.find? name with
  | some l => (l, r)
  | none =>
    let l := Logger.make name r.level
    (l, { r with loggers := r.loggers ++ [l] })

def setLevel (r : Registry) (level : LevelName) : Except LoggingFault Registry := do
  let level ← level.value
  return ⟨r.loggers.map (Logger.setLevel level), level⟩

/-- Replaces the handlers of the loggers that exist. -/
def withHandlers (r : Registry) (h : Handler) : Registry :=
  ⟨r.loggers.map (Logger.replaceHandlers h), h.level⟩

/-- Replaces the handlers of the loggers that exist; of two faults that of the format is reported. -/
def configure (r : Registry) (level : LevelName) (format : String) (stream : Stream) :
    Except LoggingFault Registry := do
  let format ← Format.ofText format
  return r.withHandlers ⟨← level.value, format, stream⟩

/-- The lines of a message at a level; the logger is created if need be. -/
def write (r : Registry) (name : Option String) (level : Int) (message : String) :
    List (Stream × String) × Registry :=
  let (l, r) := r.get name
  (l.emit level message, r)

/-- Logs a message at a level, which must be a number; the logger is created in any case. -/
def log (r : Registry) (name : Option String) (level : LevelName) (message : String) :
    Except LoggingFault (List (Stream × String)) × Registry :=
  match level with
  | .number k => let (lines, r) := r.write name k message; (.ok lines, r)
  | _ => (.error .levelIsOther, (r.get name).2)

/-- The loggers that always exist: one for each source of remarks, and one for the demonstration. -/
def initial : Registry :=
  (Source.all.map Source.logger ++ [Logger.demonstration]).foldl
    (fun r name => (r.get (some name)).2) empty

/-- The lines that remarks lead to, in order. -/
def remarkLines (r : Registry) (remarks : List (Remark Float)) : List (Stream × String) :=
  remarks.flatMap fun m => (r.write (some m.source.logger) m.level m.text).1

/-- The lines of remarks from a level on, in the standard format. -/
def linesAt (level : Int) (remarks : List (Remark Float)) : List String :=
  ((initial.withHandlers ⟨level, .standard, .standardError⟩).remarkLines remarks).map Prod.snd

end Registry

end Downhill
