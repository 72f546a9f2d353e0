import Downhill.Logging.Hidden

/-! Text in quotes, with everything escaped that does not show: line ends and tabs by a letter, other
characters by two, four or eight hexadecimal digits. -/
namespace Downhill.Quoted

/-- The last `k` hexadecimal digits of a number, the highest first. -/
def hexDigits : Nat → Nat → List Char
  | 0, _ => []
  | k + 1, n => hexDigits k (n / 16) ++ [Nat.digitChar (n % 16)]

@[simp] theorem length_hexDigits (k n : Nat) : (hexDigits k n).length = k := by
  induction k generalizing n with
  | zero => rfl
  | succ k ih => simp [hexDigits, ih]

def byCode (c : Char) : List Char :=
  let n := c.toNat
  if n < 0x100 then 'x' :: hexDigits 2 n
  else if n < 0x10000 then 'u' :: hexDigits 4 n
  else 'U' :: hexDigits 8 n

def backslash : Char := Char.ofNat 92

def escape (asciiOnly : Bool) (quote c : Char) : List Char :=
  if c == quote || c == backslash then [backslash, c]
  else if c.toNat = 9 then [backslash, 't']
  else if c.toNat = 10 then [backslash, 'n']
  else if c.toNat = 13 then [backslash, 'r']
  else if isHidden c || (asciiOnly && 128 ≤ c.toNat) then backslash :: byCode c
  else [c]

/-- Single quotes, or double ones around text that has single quotes alone. -/
def quoteFor (s : List Char) : Char :=
  let single := Char.ofNat 39
  if s.elem single && !s.elem '"' then '"' else single

def encode (asciiOnly : Bool) (s : String) : String :=
  let quote := quoteFor s.toList
  String.ofList (quote :: s.toList.flatMap (escape asciiOnly quote) ++ [quote])

example : (encode false "it is").length = 7 := by decide +kernel

end Downhill.Quoted
