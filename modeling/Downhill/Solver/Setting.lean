import Downhill.LineSearch.Family

/-! Parameters by name, as callers write them. A parameter that its owner does not have, or that has
the wrong type, is refused before any value is looked at. -/
namespace Downhill

universe u

/-- The value of a parameter as a caller writes it. -/
inductive Setting (α : Type) where
  | count (k : Int)
  | real (v : α)
  | flag (b : Bool)
  | text (words : String)
  | search (s : LineSearch α)
  /-- A search that has no parameters, by its name. -/
  | machine (name : String)
  | absent
  deriving Repr, DecidableEq

namespace Setting
variable {α : Type} [Scalar α]

/-- Whole numbers stand for reals too. -/
def real? : Setting α → Option α
  | count k => some (if k < 0 then -(k.natAbs : α) else (k.natAbs : α))
  | real v => some v
  | _ => none

def count? : Setting α → Option Int
  | count k => some k
  | _ => none

def flag? : Setting α → Option Bool
  | flag b => some b
  | _ => none

def text? : Setting α → Option String
  | text words => some words
  | _ => none

def optionalCount? : Setting α → Option (Option Int)
  | count k => some (some k)
  | absent => some none
  | _ => none

end Setting

/-- Parameters by name, in the order in which they are given. -/
abbrev Settings (α : Type) := List (String × Setting α)

/-- Gives an owner its parameters one by one. -/
def Settings.assign {α : Type} {β : Type u} (assign? : β → String → Setting α → Option β)
    (owner : β) (settings : Settings α) : Except (Fault α) β :=
  settings.foldlM (fun owner (name, v) =>
    match assign? owner name v with
    | some owner => .ok owner
    | none => .error .unknownParameter) owner

/-- A parameter that is given in another way already must not be given by name again. -/
def Settings.without {α : Type} (settings : Settings α) (names : List String) :
    Except (Fault α) Unit :=
  if settings.any fun p => p.1 ∈ names then .error .unknownParameter else .ok ()

end Downhill
