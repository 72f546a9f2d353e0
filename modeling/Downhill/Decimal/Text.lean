import Downhill.Decimal.Shortest

/-! The written forms of a double that reports and messages use: a set number of places, a set
number of digits with an exponent, the general form that picks between the two, and the
fewest digits that read back. -/
namespace Downhill.Decimal

/-- The decimal digits of a number, filled with zeros on the left to at least `width`. -/
def padded (width n : Nat) : String :=
  let s := toString n
  String.ofList (List.replicate (width - s.length) '0') ++ s

/-- The last `places` digits stand behind the point; without places there is no point. -/
def pointed (n places : Nat) : String :=
  let s := (padded (places + 1) n).toList
  let cut := s.length - places
  if places = 0 then String.ofList s
  else String.ofList (s.take cut ++ '.' :: s.drop cut)

/-- An exponent has a sign and at least two digits. -/
def exponentText (e : Int) : String :=
  (if e < 0 then "e-" else "e+") ++ padded 2 e.natAbs

/-- The sign in front, and the names of the values that are no numbers. -/
def signed (v : Float) (magnitude : Binary → String) : String :=
  match Reading.ofFloat v with
  | .nan => "nan"
  | .infinite negative => if negative then "-inf" else "inf"
  | .finite negative x => (if negative then "-" else "") ++ magnitude x

namespace Binary

/-- A point behind a text that has none, where it is wanted. -/
def withPoint (wanted : Bool) (s : String) : String :=
  if wanted && !s.toList.contains '.' then s ++ "." else s

/-- A set number of places; `bare` keeps a point without places. -/
def fixedText (places : Nat) (x : Binary) (bare : Bool) : String :=
  withPoint bare (pointed (x.round places) places)

def scientificText (places : Nat) (x : Binary) (bare : Bool) : String :=
  let d := x.significant places
  withPoint bare (pointed d.digits places) ++ exponentText d.exponent

/-- Zeros at the end of a fraction go, and a point that is left bare goes with them. -/
def trimmed (s : String) : String :=
  if s.toList.contains '.' then
    let kept := s.toList.reverse.dropWhile (· == '0')
    String.ofList (if kept.head? = some '.' then kept.drop 1 else kept).reverse
  else s

/-- A number of significant digits, at least one: positional for exponents from -4 up to that
number. Zeros at the end go, unless all digits are wanted. -/
def generalText (count : Nat) (x : Binary) (full : Bool) : String :=
  let top := count - 1
  let d := x.significant top
  let ended (s : String) := if full then withPoint true s else trimmed s
  if -4 ≤ d.exponent ∧ d.exponent ≤ top then ended (fixedText (top - d.exponent).toNat x false)
  else ended (pointed d.digits top) ++ exponentText d.exponent

/-- The fewest digits: positional for exponents from -4 to 15, there always with a digit behind
the point. -/
def shortestText (x : Binary) : String :=
  if x.isZero then "0.0"
  else
    let d := x.shortest
    let count := (toString d.digits).length
    let top := d.exponent + count - 1
    if -4 ≤ top ∧ top < 16 then
      if 0 ≤ d.exponent then toString (d.digits * Nat.pow 10 d.exponent.toNat) ++ ".0"
      else pointed d.digits (-d.exponent).toNat
    else
      pointed d.digits (count - 1) ++ exponentText top

end Binary

def fixed (places : Nat) (v : Float) : String := signed v (Binary.fixedText places · false)

/-- One digit, the point, a set number of digits and an exponent. -/
def scientific (places : Nat) (v : Float) : String :=
  signed v (Binary.scientificText places · false)

def general (v : Float) : String := signed v (Binary.generalText 6 · false)

def plain (v : Float) : String := signed v Binary.shortestText

example : plain 0.1 = "0.1" := by decide +kernel
example : plain 1e16 = "1e+16" := by decide +kernel
example : plain (-1e-6) = "-1e-06" := by decide +kernel
example : scientific 3 1234.56 = "1.235e+03" := by decide +kernel
example : fixed 2 0.125 = "0.12" := by decide +kernel
example : general 1e-16 = "1e-16" := by decide +kernel

end Downhill.Decimal
