import Downhill.Decimal.Whole
import Downhill.Demo.Word

/-! The command line of the demonstration: one method or all of them, a seed for the random
draws, and a switch for the log. -/
namespace Downhill.Demo

structure Arguments where
  mode : String
  seed : Int
  verbose : Bool
  deriving Repr, DecidableEq

/-- What a command line asks for. -/
inductive Command where
  | run (arguments : Arguments)
  | help
  | rejected
  deriving Repr, DecidableEq

def modes : List String := ["lbfgs", "cg", "newton", "all"]

def methods (mode : String) : List String :=
  if mode = "all" then ["lbfgs", "cg", "newton"] else [mode]

/-- A command line that is read up to some word: whether a method was named, whether that was by the
last word, and whether there was a word too many. -/
structure Reader where
  arguments : Arguments := ⟨"all", 100, false⟩
  named : Bool := false
  justNamed : Bool := false
  stray : Bool := false
  deriving Repr, DecidableEq

namespace Reader

/-- A word that names a method, of which there can be one. -/
def name? (s : Reader) (word : String) : Option Reader :=
  if s.named then some { s with justNamed := false, stray := true }
  else if modes.elem word then
    some { s with arguments.mode := word, named := true, justNamed := true }
  else none

def seed? (s : Reader) (word : String) : Option Reader :=
  (Decimal.whole? word).map fun seed => { s with arguments.seed := seed, justNamed := false }

/-- The end of a command line after its options. A double dash may come next, and after it
everything names a method; it belongs to the word that names one, before or after it. -/
def finish (s : Reader) : List String → Command
  | [] => if s.stray then .rejected else .run s.arguments
  | _ :: rest =>
    if s.stray then .rejected
    else
      match s.named, rest with
      | true, [] => if s.justNamed then .run s.arguments else .rejected
      | false, [] => .run s.arguments
      | false, [word] => ((s.name? word).map fun s => .run s.arguments).getD .rejected
      | _, _ => .rejected

/-- Reads words one by one. A wrong value is rejected at once. A stray word, which is an unknown
option or one method too many, only rejects a command line that does not ask for help later on. -/
def read (s : Reader) (rest : List String) : List Word → Command
  | [] => s.finish rest
  | .plain word :: r =>
    match s.name? word with
    | some s => s.read rest r
    | none => .rejected
  | .help :: _ => .help
  | .verbose :: r => { s with arguments.verbose := true, justNamed := false : Reader }.read rest r
  | .seed (some word) :: r | .seed none :: .plain word :: r =>
    match s.seed? word with
    | some s => s.read rest r
    | none => .rejected
  | .unknown :: r => { s with justNamed := false, stray := true : Reader }.read rest r
  | .seed none :: _ | .misused :: _ | .ambiguous :: _ => .rejected

end Reader

/-- What the words of a command line ask for. An ambiguous option rejects all of it. -/
def command (words : List String) : Command :=
  let front := words.takeWhile (· ≠ "--")
  let read := front.map Word.ofString
  if read.elem .ambiguous then .rejected
  else ({} : Reader).read (words.drop front.length) read

example : command ["--se=1_0", "cg"] = .run ⟨"cg", 10, false⟩ := by decide +kernel

example : command ["sgd"] = .rejected := by decide +kernel

example : command ["cg", "newton"] = .rejected := by decide +kernel

example : command ["--fast", "-h"] = .help := by decide +kernel

example : command ["cg", "--verbose", "--"] = .rejected := by decide +kernel

end Downhill.Demo
