import Downhill.Decimal.Digit

/-! The words of a command line. A word is read on its own: whether it is an option, and with which
value, does not depend on the words around it. Options may be shortened as long as they stay
unambiguous, and a value may follow after an equals sign. -/
namespace Downhill.Demo

inductive Word where
  | plain (text : String)
  | help
  | verbose
  | seed (value : Option String)
  /-- An option with text that it does not take. -/
  | misused
  /-- An option that there is not. -/
  | unknown
  /-- The beginning of several options. -/
  | ambiguous
  deriving Repr, DecidableEq

namespace Word

/-- The options with long names, each as a word that takes its value. -/
def long : List (String × (Option String → Word)) :=
  [("--help", fun v => if v.isSome then misused else help), ("--seed", seed),
    ("--verbose", fun v => if v.isSome then misused else verbose)]

/-- A word up to its first equals sign, and what follows the sign. -/
def splitValue (word : List Char) : List Char × Option String :=
  let name := word.takeWhile (· ≠ '=')
  (name, (word.drop name.length).tail?.map String.ofList)

/-- The option that two dashes and a beginning of its name ask for, if there is one. -/
def ofLong? (word : List Char) : Option Word :=
  let (name, value) := splitValue word
  match long.filter fun option => name.isPrefixOf option.1.toList with
  | [] => none
  | [option] => some (option.2 value)
  | _ => some ambiguous

/-- What follows one dash and the letter `h`: nothing, or the same letter again and again, perhaps
after an equals sign. -/
def ofLetters : List Char → Word
  | [] => help
  | '=' :: r => if !r.isEmpty && r.all (· == 'h') then help else misused
  | r => if r.all (· == 'h') then help else misused

/-- The digits of a number that may have a point, of which the last part is not empty; a line end
may follow. -/
def isUnsigned (s : List Char) : Bool :=
  let s := if s.getLast? = some '\n' then s.dropLast else s
  match s.dropWhile Decimal.isDigit with
  | [] => !s.isEmpty
  | '.' :: fraction => !fraction.isEmpty && fraction.all Decimal.isDigit
  | _ => false

/-- A dash in front of something that is no option: a negative number, or text with a space in
it. -/
def ofRest (word : List Char) : Word :=
  if isUnsigned word.tail || word.elem ' ' then plain (String.ofList word) else unknown

def ofChars : List Char → Word
  | '-' :: '-' :: r => (ofLong? ('-' :: '-' :: r)).getD (ofRest ('-' :: '-' :: r))
  | '-' :: 'h' :: r => ofLetters r
  | '-' :: c :: r => ofRest ('-' :: c :: r)
  | word => plain (String.ofList word)

def ofString (word : String) : Word := ofChars word.toList

example : ofString "--se=1_0" = seed (some "1_0") := by decide +kernel

example : ofString "--=" = ambiguous := by decide +kernel

example : ofString "-1.5" = plain "-1.5" := by decide +kernel

example : ofString "-1." = unknown := by decide +kernel

example : ofString "-hx" = misused := by decide +kernel

end Word

end Downhill.Demo
