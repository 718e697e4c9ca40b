import Reckon.Number.Binary64
import Reckon.Text.Unicode
/-
  Reading numbers from text. Blanks around a number are skipped, decimal digits of every script
  count, and single underscores may stand between digits. Whole numbers in base ten are read up
  to a number of digits that keeps the work bounded; decimals are rounded to the nearest
  floating point number.
-/
namespace Reckon.Reading

/-- Why a text is no number. -/
inductive Problem where
  | malformed
  | tooManyDigits (count : Nat)
  deriving DecidableEq, Repr

/-- The most digits of a whole number in base ten. -/
def maxDigits : Nat := 4300

/-- The character that a number text is read with: a digit of any script becomes its ASCII
form, a blank becomes a space, and any other character outside ASCII is no part of a number. -/
def plain (c : Char) : Char :=
  if c.toNat < 127 then c
  else if Unicode.isBlank c then ' '
  else match Unicode.decimalValue? c with
    | some v => Char.ofNat (48 + v)
    | none => '?'

/-- Blanks, once the text is in plain characters. -/
def isBlank (c : Char) : Bool :=
  c == ' ' || c == '\t' || c == '\n' || c == '\r' || c == '\x0c' || c == '\x0b'

def plainText (s : String) : List Char := (s.toList.map plain).dropWhile isBlank

/-- Takes a sign off; `true` stands for minus. -/
def takeSign : List Char → Bool × List Char
  | '+' :: cs => (false, cs)
  | '-' :: cs => (true, cs)
  | cs => (false, cs)

/-- Every underscore has a digit before it (or is the first character and `lead` is set) and
one after it. -/
def wellGrouped (lead : Bool) : List Char → Bool
  | [] => lead
  | c :: cs => if c == '_' then lead && wellGrouped false cs else wellGrouped true cs

/-- The value of a digit, hexadecimal ones included. -/
def digitValue (c : Char) : Nat :=
  if c.isDigit then c.toNat - 48
  else if 'a' ≤ c && c ≤ 'f' then c.toNat - 87
  else c.toNat - 55

/-- The number that digits denote. -/
def value (base : Nat) (digits : List Char) : Nat :=
  digits.foldl (fun n c => n * base + digitValue c) 0

theorem value_concat (base : Nat) (ds : List Char) (c : Char) :
    value base (ds ++ [c]) = value base ds * base + digitValue c := by
  simp [value]

/-- Digits and the underscores among them. -/
def digitRun (isDigit : Char → Bool) (cs : List Char) : List Char :=
  cs.takeWhile fun c => isDigit c || c == '_'

def withoutUnderscores (cs : List Char) : List Char := cs.filter (· != '_')

def isHexDigit (c : Char) : Bool :=
  c.isDigit || ('a' ≤ c && c ≤ 'f') || ('A' ≤ c && c ≤ 'F')

/-- A whole number in base ten. -/
def decimalInt (s : String) : Except Problem Int :=
  let (negative, cs) := takeSign (plainText s)
  let run := digitRun Char.isDigit cs
  let digits := withoutUnderscores run
  if !wellGrouped false run then .error .malformed
  else if maxDigits < digits.length then .error (.tooManyDigits digits.length)
  else if !(cs.drop run.length).all isBlank then .error .malformed
  else .ok (if negative then -(value 10 digits : Int) else value 10 digits)

/-- A whole number in base sixteen, after its `0x`. -/
def hexInt (s : String) : Except Problem Int :=
  let cs := (plainText s).drop 2
  let run := digitRun isHexDigit cs
  let digits := withoutUnderscores run
  if !wellGrouped true run || digits.isEmpty then .error .malformed
  else if !(cs.drop run.length).all isBlank then .error .malformed
  else .ok (value 16 digits)

/-- Every underscore stands between two digits; `before` says whether a digit stands before
the text. -/
def underscoresSeparate (before : Bool) : List Char → Bool
  | [] => true
  | '_' :: cs => before && (cs.head?.any Char.isDigit) && underscoresSeparate false cs
  | c :: cs => underscoresSeparate c.isDigit cs

/-- The digits of a fraction and the rest of the text. -/
def takeFraction : List Char → List Char × List Char
  | '.' :: cs => (cs.takeWhile Char.isDigit, cs.dropWhile Char.isDigit)
  | cs => ([], cs)

/-- A power of ten at the end of a decimal; nothing when it is malformed or more text
follows. -/
def exponent? : List Char → Option Int
  | [] => some 0
  | c :: cs =>
    if c == 'e' || c == 'E' then
      let (negative, ds) := takeSign cs
      if ds.isEmpty || !ds.all Char.isDigit then none
      else some (if negative then -(value 10 ds : Int) else value 10 ds)
    else none

/-- A decimal, as the floating point number nearest to it. -/
def decimalFloat (s : String) : Except Problem Float :=
  let trimmed := ((plainText s).reverse.dropWhile isBlank).reverse
  if !underscoresSeparate false trimmed then .error .malformed
  else
    let (negative, cs) := takeSign (withoutUnderscores trimmed)
    let whole := cs.takeWhile Char.isDigit
    let (fraction, rest) := takeFraction (cs.dropWhile Char.isDigit)
    match exponent? rest with
    | none => .error .malformed
    | some e =>
      if whole.isEmpty && fraction.isEmpty then .error .malformed
      else
        .ok (Binary64.ofDecimal negative (value 10 (whole ++ fraction)) (e - fraction.length))

end Reckon.Reading
