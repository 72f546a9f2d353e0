import Downhill.Decimal.Text
import Downhill.Decimal.Whole
import Downhill.Logging.Level
import Downhill.Logging.Quoted

/-! Line formats: text with places for the level, the logger and the message. A place is a per cent
sign, a name in round brackets and a letter; between these there may be flags, a width and a
precision, as in `%(name)-8.3s`. -/
namespace Downhill

inductive Field where
  | level
  | number
  | logger
  | message
  /-- A word that is the same in every line. -/
  | word (text : String)
  /-- The same for something that is no text and stands without quotes. -/
  | symbol (text : String)
  deriving Repr, DecidableEq

inductive Style where
  | plain
  | quoted (asciiOnly : Bool)
  | letter
  /-- A whole number in a base, in small letters or capitals. -/
  | whole (base : Nat) (capital : Bool)
  | fixed
  | scientific (capital : Bool)
  | general (capital : Bool)
  deriving Repr, DecidableEq

/-- What may stand between the name and the width of a place. -/
structure Flags where
  /-- Blanks up to the width stand behind the text. -/
  toLeft : Bool := false
  /-- Zeros fill up the width of a number. -/
  zeros : Bool := false
  /-- A sign stands in front of a number that is not negative. -/
  plus : Bool := false
  /-- A blank stands there. -/
  blank : Bool := false
  /-- The mark of the base, and a point in every number that can have one. -/
  alternate : Bool := false
  deriving Repr, DecidableEq

structure Place where
  field : Field
  style : Style
  flags : Flags
  width : Nat
  /-- The greatest length of a text, or the number of digits. -/
  precision : Option Nat
  deriving Repr, DecidableEq

inductive Piece where
  | place (p : Place)
  | letter (c : Char)
  /-- A part that cannot be written. -/
  | unfit
  deriving Repr, DecidableEq

abbrev Format := List Piece

namespace Field

def ofName? : String → Option Field
  | "levelname" => some level
  | "levelno" => some number
  | "name" => some logger
  | "message" => some message
  | "msg" => some message
  | "processName" => some (word "MainProcess")
  | "threadName" => some (word "MainThread")
  | "args" => some (symbol "()")
  | "exc_info" => some (symbol "None")
  | "exc_text" => some (symbol "None")
  | "stack_info" => some (symbol "None")
  | _ => none

def text (level : Int) (logger message : String) : Field → String
  | .level => Level.label level
  | .number => toString level
  | .logger => logger
  | .message => message
  | .word text => text
  | .symbol text => text

/-- The content is a text, which may stand in quotes. -/
def isText : Field → Bool
  | .number => false
  | .symbol _ => false
  | _ => true

end Field

namespace Flags

def isFlag (c : Char) : Bool := "#0- +".toList.elem c

def ofList (flags : List Char) : Flags where
  toLeft := flags.elem '-'
  zeros := flags.elem '0'
  plus := flags.elem '+'
  blank := flags.elem ' '
  alternate := flags.elem '#'

/-- What stands in front of the magnitude of a number. -/
def sign (f : Flags) (negative : Bool) : String :=
  if negative then "-" else if f.plus then "+" else if f.blank then " " else ""

end Flags

namespace Place

def simple (field : Field) : Place := ⟨field, .plain, {}, 0, none⟩

/-- Blanks up to the width. -/
def fill (p : Place) (s : String) : String :=
  let blanks := String.ofList (List.replicate (p.width - s.length) ' ')
  if p.flags.toLeft then s ++ blanks else blanks ++ s

/-- The beginning of a text up to the precision. -/
def cut (p : Place) (s : String) : String :=
  match p.precision with
  | some k => String.ofList (s.toList.take k)
  | none => s

/-- The digits of a number behind its sign and mark, filled up with zeros or with blanks. -/
def numeric (p : Place) (front digits : String) : String :=
  let zeros := if p.flags.zeros && !p.flags.toLeft then
      List.replicate (p.width - front.length - digits.length) '0' else []
  p.fill (front ++ String.ofList zeros ++ digits)

def capitals (capital : Bool) (s : String) : String := if capital then s.map Char.toUpper else s

def whole (p : Place) (base : Nat) (capital : Bool) (k : Int) : String :=
  let digits := String.ofList (Nat.toDigits base k.natAbs)
  let zeros := String.ofList (List.replicate (p.precision.getD 0 - digits.length) '0')
  let mark := if p.flags.alternate then
      if base = 16 then "0x" else if base = 8 then "0o" else ""
    else ""
  p.numeric (p.flags.sign (k < 0) ++ capitals capital mark) (capitals capital (zeros ++ digits))

/-- A whole number as the nearest double, if there is one. -/
def real? (p : Place) (k : Int) (capital : Bool) (magnitude : Decimal.Binary → String) :
    Option String :=
  match Decimal.Reading.ofFloat (Float.ofInt k) with
  | .finite negative x => some (p.numeric (p.flags.sign negative) (capitals capital (magnitude x)))
  | _ => none

def single? (s : String) : Option String := if s.length = 1 then some s else none

def character? (k : Int) : Option String :=
  if 0 ≤ k ∧ k.toNat.isValidChar then some (Char.ofNat k.toNat).toString else none

/-- The text in a place, if the content of its field can be written in this style. -/
def text? (p : Place) (level : Int) (logger message : String) : Option String :=
  let s := p.field.text level logger message
  let places := p.precision.getD 6
  match p.style, p.field with
  | .plain, _ => some (p.fill (p.cut s))
  | .quoted asciiOnly, f =>
    some (p.fill (p.cut (if f.isText then Quoted.encode asciiOnly s else s)))
  | .letter, .number => (character? level).map p.fill
  | .letter, f => if f.isText then (single? s).map p.fill else none
  | .whole base capital, .number => some (p.whole base capital level)
  | .fixed, .number =>
    p.real? level false fun x => x.fixedText places p.flags.alternate
  | .scientific capital, .number =>
    p.real? level capital fun x => x.scientificText places p.flags.alternate
  | .general capital, .number =>
    p.real? level capital fun x => x.generalText places p.flags.alternate
  | _, _ => none

end Place

namespace Format

/-- The level in square brackets, the logger, a colon and the message. -/
def standard : Format :=
  [.letter '[', .place (.simple .level), .letter ']', .letter ' ', .place (.simple .logger),
    .letter ':', .letter ' ', .place (.simple .message)]

/-- The text up to the bracket that closes what `depth` brackets opened, and what follows it. -/
def bracketed : (depth : Nat) → List Char → Option (List Char × List Char)
  | _, [] => none
  | 0, ')' :: r => some ([], r)
  | k + 1, ')' :: r => (bracketed k r).map fun (a, b) => (')' :: a, b)
  | k, '(' :: r => (bracketed (k + 1) r).map fun (a, b) => ('(' :: a, b)
  | k, c :: r => (bracketed k r).map fun (a, b) => (c :: a, b)

/-- The number at the beginning of a text, zero if there is none, and what follows it. -/
def number (s : List Char) : Nat × List Char :=
  let ds := s.takeWhile Char.isDigit
  (Decimal.ofDigits (ds.filterMap Decimal.digit?), s.drop ds.length)

/-- The precision at the beginning of a text, which has a point in front. -/
def precision : List Char → Option Nat × List Char
  | '.' :: r => let (k, r) := number r; (some k, r)
  | r => (none, r)

def style? : Char → Option Style
  | 's' => some .plain
  | 'r' => some (.quoted false)
  | 'a' => some (.quoted true)
  | 'c' => some .letter
  | 'd' | 'i' | 'u' => some (.whole 10 false)
  | 'o' => some (.whole 8 false)
  | 'x' => some (.whole 16 false)
  | 'X' => some (.whole 16 true)
  | 'f' | 'F' => some .fixed
  | 'e' => some (.scientific false)
  | 'E' => some (.scientific true)
  | 'g' => some (.general false)
  | 'G' => some (.general true)
  | _ => none

/-- Widths and precisions are smaller than this. -/
def countBound : Nat := Nat.pow 2 31 - 1

/-- The place of a field from its flags on, and what follows it. A letter for the size of numbers
may stand in front of the last letter and means nothing. -/
def place (field : Field) (s : List Char) : Piece × List Char :=
  let flags := s.takeWhile Flags.isFlag
  let (width, s) := number (s.drop flags.length)
  let (precision, s) := precision s
  match (if (s.head?.map "hlL".toList.elem).getD false then s.tail else s) with
  | [] => (.unfit, [])
  | c :: r =>
    match style? c with
    | some style =>
      if width < countBound ∧ precision.getD 0 < countBound then
        (.place ⟨field, style, .ofList flags, width, precision⟩, r)
      else (.unfit, r)
    | none => (.unfit, r)

/-- The part that follows a per cent sign, and what follows the part: a second sign, or a place of
a field that there is. -/
def piece : List Char → Piece × List Char
  | '%' :: r => (.letter '%', r)
  | '(' :: r =>
    match bracketed 0 r with
    | some (name, r) =>
      match Field.ofName? (String.ofList name) with
      | some f => place f r
      | none => (.unfit, r)
    | none => (.unfit, [])
  | r => (.unfit, r)

/-- Reads a format, after letters that belong to the part before. -/
def ofCharsAfter : (skip : Nat) → List Char → Format
  | _, [] => []
  | k + 1, _ :: r => ofCharsAfter k r
  | 0, '%' :: r => let (p, rest) := piece r; p :: ofCharsAfter (r.length - rest.length) r
  | 0, c :: r => .letter c :: ofCharsAfter 0 r

def ofChars : List Char → Format := ofCharsAfter 0

/-- A letter of a name in round brackets; beyond the first 128 characters all are taken for
letters. -/
def isNameLetter (c : Char) : Bool := c.isAlphanum || c == '_' || 128 ≤ c.toNat

/-- What follows a width or a precision, which may be left to a star. -/
def afterCount (s : List Char) : List Char :=
  if s.head? = some '*' then s.tail else s.dropWhile Decimal.isDigit

/-- A letter that a place may end in, in either case. -/
def isPlaceEnd (c : Char) : Bool :=
  "diouxefgcrsa%".toList.elem c.toLower || c.toNat = 0x131 || c.toNat = 0x17f

/-- A text that begins with a place, for whatever it is. -/
def startsPlace : List Char → Bool
  | '%' :: '(' :: r =>
    let name := r.takeWhile isNameLetter
    match r.drop name.length with
    | ')' :: r =>
      let r := afterCount (r.dropWhile Flags.isFlag)
      let r := match r with
        | '.' :: c :: t => if c == '*' || Decimal.isDigit c then afterCount (c :: t) else r
        | _ => r
      !name.isEmpty && (r.head?.map isPlaceEnd).getD false
    | _ => false
  | _ => false

/-- A text has a place somewhere. -/
def hasPlace : List Char → Bool
  | [] => false
  | c :: r => startsPlace (c :: r) || hasPlace r

/-- Reads a format, which must have a place; the empty text stands for the standard format. -/
def ofText (s : String) : Except LoggingFault Format :=
  if s.isEmpty then .ok standard
  else if hasPlace s.toList then .ok (ofChars s.toList)
  else .error .noPlace

/-- The text of a part, if it can be written. -/
def pieceText? (level : Int) (logger message : String) : Piece → Option String
  | .place p => p.text? level logger message
  | .letter c => some c.toString
  | .unfit => none

/-- The text of a line, if all its parts can be written. -/
def line? (f : Format) (level : Int) (logger message : String) : Option String :=
  (f.mapM (pieceText? level logger message)).map String.join

theorem ofChars_standard : ofChars "[%(levelname)s] %(name)s: %(message)s".toList = standard := by
  decide +kernel

example : line? (ofChars "%(levelname)-8s|%(message).3s%%".toList) 20 "" "hello" =
    some "INFO    |hel%" := by decide +kernel

example : line? (ofChars "%(levelno)#x %(levelno)08.2f %(levelno)c".toList) 35 "" "" =
    some "0x23 00035.00 #" := by decide +kernel

end Format

end Downhill
