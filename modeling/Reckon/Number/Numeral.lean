import Reckon.Number.Reading
/-
  Whole numbers as settings give them in a text. A plain numeral is a minus, if any, and digits,
  the first of them no zero unless it is the only one. Around and inside it a text may have what
  helps a reader and changes nothing: blanks, a plus, zeros in front with underscores among
  them, single underscores, and a fraction of zeros. A text that is no plain numeral is cleared
  of all that and read once more.
-/
namespace Reckon.Numeral

/-- Why a text is no whole number. -/
inductive Problem where
  | malformed
  | tooLong
  deriving DecidableEq, Repr

/-- The most characters of a plain numeral. -/
def maxLength : Nat := 4300

/-- Takes a minus off. -/
def takeMinus : List Char → Bool × List Char
  | '-' :: cs => (true, cs)
  | cs => (false, cs)

/-- Whether digits start with a zero that could be left out. -/
def hasLeadingZero : List Char → Bool
  | '0' :: _ :: _ => true
  | _ => false

/-- A plain numeral, without zeros in front. One that is too long is not looked at any
further. -/
def plain (cs : List Char) : Except Problem Int :=
  let (negative, rest) := takeMinus cs
  let digits := rest.takeWhile Char.isDigit
  if digits.isEmpty || hasLeadingZero digits then .error .malformed
  else if maxLength < cs.length - rest.length + digits.length then .error .tooLong
  else if digits.length < rest.length then .error .malformed
  else
    let n : Int := Reading.value 10 digits
    .ok (if negative then -n else n)

/-! ## Clearing -/

/-- The text without blanks around it. -/
def trimmed (cs : List Char) : List Char :=
  ((cs.dropWhile Unicode.isBlank).reverse.dropWhile Unicode.isBlank).reverse

/-- Whether a sign stands in front. -/
def hasSign : List Char → Bool
  | '+' :: _ | '-' :: _ => true
  | _ => false

/-- Takes a sign off and tells whether it was a minus. Two signs are refused. -/
def takeSign (cs : List Char) : Option (Bool × List Char) :=
  if !hasSign cs then some (false, cs)
  else if hasSign cs.tail then none
  else some (cs.head? == some '-', cs.tail)

/-- Whether a numeral may go on with this character behind zeros. -/
def startsDigits (c : Char) : Bool := ('1' ≤ c && c ≤ '9') || c == '-'

/-- Drops zeros, and underscores among them, behind the character `last`, which stays where
nothing or a point follows. -/
def skipZeros (last : Char) : List Char → Option (List Char)
  | [] => some [last]
  | c :: cs =>
    if c == '0' || c == '_' then skipZeros c cs
    else if startsDigits c then some (c :: cs)
    else if c == '.' then some (last :: c :: cs)
    else none

/-- The text without zeros in front, unless it is zero. -/
def withoutLeadingZeros : List Char → Option (List Char)
  | [] => none
  | c :: cs =>
    if c == '0' then skipZeros c cs else if startsDigits c then some (c :: cs) else none

/-- The text before a fraction of zeros; the whole text where it has no such fraction. -/
def withoutZeroFraction (cs : List Char) : List Char :=
  let fraction := (cs.dropWhile (· != '.')).drop 1
  if !fraction.isEmpty && fraction.all (· == '0') then cs.takeWhile (· != '.') else cs

/-- Whether two underscores stand side by side. -/
def hasDoubleUnderscore : List Char → Bool
  | '_' :: '_' :: _ => true
  | _ :: cs => hasDoubleUnderscore cs
  | [] => false

/-- The text without underscores, if they are single ones inside it. -/
def withoutSingleUnderscores (cs : List Char) : List Char :=
  if cs.head? == some '_' || cs.getLast? == some '_' || hasDoubleUnderscore cs then cs
  else Reading.withoutUnderscores cs

/-- The text without all that changes nothing. A minus is set aside meanwhile, so that what
follows it is cleared as if it stood alone. -/
def cleared (cs : List Char) : Option (List Char) := do
  let (negative, cs) ← takeSign (trimmed cs)
  let cs ← withoutLeadingZeros cs
  let cs := withoutSingleUnderscores (withoutZeroFraction cs)
  some (if negative then '-' :: cs else cs)

/-- A whole number in a text. Only a text that is itself a plain numeral is refused as too long. -/
def ofText (s : String) : Except Problem Int :=
  match plain s.toList with
  | .error .malformed =>
    match cleared s.toList with
    | some cs => (plain cs).mapError fun _ => .malformed
    | none => .error .malformed
  | read => read

end Reckon.Numeral
