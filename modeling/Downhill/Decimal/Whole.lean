import Downhill.Decimal.Digit

/-! Reading whole numbers: blanks around the number are skipped, a sign may stand in front, the
digits may be those of any script, and single underscores may stand between them. -/
namespace Downhill.Decimal

/-- The blanks beyond the first 128 characters. -/
def wideBlanks : List Nat :=
  [0x85, 0xa0, 0x1680, 0x2000, 0x2001, 0x2002, 0x2003, 0x2004, 0x2005, 0x2006, 0x2007, 0x2008,
    0x2009, 0x200a, 0x2028, 0x2029, 0x202f, 0x205f, 0x3000]

/-- The space, the characters from the tab to the carriage return, and the wide blanks. -/
def isBlank (c : Char) : Bool :=
  c == ' ' || (9 ≤ c.toNat && c.toNat ≤ 13) || wideBlanks.contains c.toNat

theorem isBlank_of_isWhitespace {c : Char} (h : c.isWhitespace) : isBlank c := by
  simp only [Char.isWhitespace, Bool.or_eq_true, decide_eq_true_eq] at h
  rcases h with ((rfl | rfl) | rfl) | rfl <;> decide

/-- The text between the blanks at both ends. -/
def trimBlanks (s : List Char) : List Char :=
  ((s.dropWhile isBlank).reverse.dropWhile isBlank).reverse

/-- The values of digits; an underscore must stand between two of them. -/
def digits? : List Char → Option (List Nat)
  | [] => none
  | [c] => (digit? c).map ([·])
  | c :: '_' :: r => do return (← digit? c) :: (← digits? r)
  | c :: r => do return (← digit? c) :: (← digits? r)

/-- More digits than this are not read. -/
def maxDigits : Nat := 4300

def ofDigits (ds : List Nat) : Nat := ds.foldl (fun k d => 10 * k + d) 0

def natural? (s : List Char) : Option Nat := do
  let ds ← digits? s
  if ds.length ≤ maxDigits then return ofDigits ds else none

/-- A whole number with an optional sign. -/
def whole? (s : String) : Option Int :=
  match trimBlanks s.toList with
  | '-' :: r => (natural? r).map fun k => -(k : Int)
  | '+' :: r => (natural? r).map fun k => (k : Int)
  | r => (natural? r).map fun k => (k : Int)

example : whole? " -1_0 " = some (-10) := by decide +kernel

example : whole? "1_" = none := by decide +kernel

example : whole? "1__0" = none := by decide +kernel

end Downhill.Decimal
