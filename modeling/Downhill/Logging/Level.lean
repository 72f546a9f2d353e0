/-! Severity levels. A level is a number, and six numbers have names; eight names are read, in
either case. -/
namespace Downhill

inductive LevelName where
  | number (level : Int)
  | word (name : String)
  /-- Neither a number nor a word. -/
  | other
  deriving Repr, DecidableEq

inductive LoggingFault where
  /-- The format has no place for anything. -/
  | noPlace
  /-- The word stands for a text. -/
  | levelIsText
  /-- What is meant is neither a number nor a text. -/
  | levelIsOther
  deriving Repr, DecidableEq

namespace Level

def debug : Int := 10

def info : Int := 20

def warning : Int := 30

def error : Int := 40

def critical : Int := 50

/-- The capitals of a letter, where they are Latin: besides the letters of the alphabet these are
the dotless `i`, the long `s`, and two signs for `st`. -/
def capitals (c : Char) : List Char :=
  if c.toNat = 0x131 then ['I']
  else if c.toNat = 0x17f then ['S']
  else if c.toNat = 0xfb05 ∨ c.toNat = 0xfb06 then ['S', 'T']
  else [c.toUpper]

/-- What a word in capitals stands for: a level, or the standard format and the table of format
styles, which cannot be levels. A word that is not known means warnings. -/
def ofCapitals : String → Except LoggingFault Int
  | "DEBUG" => .ok debug
  | "INFO" => .ok info
  | "WARNING" => .ok warning
  | "WARN" => .ok warning
  | "ERROR" => .ok error
  | "CRITICAL" => .ok critical
  | "FATAL" => .ok critical
  | "NOTSET" => .ok 0
  | "BASIC_FORMAT" => .error .levelIsText
  | "_STYLES" => .error .levelIsOther
  | _ => .ok warning

def label (level : Int) : String :=
  if level = debug then "DEBUG"
  else if level = info then "INFO"
  else if level = warning then "WARNING"
  else if level = error then "ERROR"
  else if level = critical then "CRITICAL"
  else if level = 0 then "NOTSET"
  else s!"Level {level}"

end Level

def LevelName.value : LevelName → Except LoggingFault Int
  | number level => .ok level
  | word name => Level.ofCapitals (String.ofList (name.toList.flatMap Level.capitals))
  | other => .error .levelIsOther

example : (LevelName.word "Warn").value.toOption = some 30 := by decide +kernel

example : (LevelName.word "loud").value.toOption = some 30 := by decide +kernel

end Downhill
