import Reckon.Number.Places
import Reckon.Number.Reading
import Reckon.Text.Quoted
import Reckon.Value
/-
  Text templates: texts with directives in the places where values are put in. A directive is a
  percent sign, then flags, a width, a precision and a size, each of which may be missing, and the
  character of a conversion; two percent signs stand for one. In place of the digits of a width or
  a precision a star may stand, which takes a value.

  A template is cut into pieces (`Template.pieces`), and the pieces are filled from left to right
  (`Template.fill`), so that the first failure is the one in front. There is one value to fill them
  with, and it must be taken exactly once. As a star leaves none for its directive, a failure
  follows it, and the number that it stands for does not matter.
-/
namespace Reckon.Template

/-! ## Pieces -/

/-- How a directive wants its value to be written. -/
structure Style where
  left : Bool := false
  plus : Bool := false
  blank : Bool := false
  alternate : Bool := false
  zeros : Bool := false
  width : Nat := 0
  precision : Option Nat := none
  deriving DecidableEq, Repr

/-- What a star stands for. -/
inductive Star where
  | width
  | precision
  deriving DecidableEq, Repr

/-- A part of a template. -/
inductive Piece where
  /-- A character of the text. -/
  | char (c : Char)
  | star (s : Star)
  /-- A directive, with the character of its conversion and where that stands. -/
  | directive (style : Style) (conversion : Char) (index : Nat)
  /-- What is no directive. Nothing behind it matters. -/
  | broken (fault : Fault)
  deriving DecidableEq, Repr

/-- Where in a template a character may stand: in the text, behind a percent sign, or in the
places of a directive, which come in this order. -/
inductive Place where
  | text
  | percent
  | flags (style : Style)
  | width (style : Style)
  | behindWidth (style : Style)
  | point (style : Style)
  | precision (style : Style)
  | size (style : Style)
  | conversion (style : Style)

/-- The pieces that end with a character, and the place of the next one. -/
abbrev Cut := List Piece × Place

/-- The most that a precision can be. -/
def maxPrecision : Nat := 2147483647

/-- A number with one more digit. -/
def withDigit (n : Nat) (c : Char) : Nat := n * 10 + Reading.digitValue c

/-- A style with the flag that a character stands for. -/
def Style.withFlag? (style : Style) : Char → Option Style
  | '-' => some { style with left := true }
  | '+' => some { style with plus := true }
  | ' ' => some { style with blank := true }
  | '#' => some { style with alternate := true }
  | '0' => some { style with zeros := true }
  | _ => none

/-- Whether a character is a size. All sizes mean the same. -/
def isSize (c : Char) : Bool := c == 'h' || c == 'l' || c == 'L'

def cutConversion (style : Style) (c : Char) (index : Nat) : Cut :=
  ([.directive style c index], .text)

def cutSize (style : Style) (c : Char) (index : Nat) : Cut :=
  if isSize c then ([], .conversion style) else cutConversion style c index

def cutPrecision (style : Style) (c : Char) (index : Nat) : Cut :=
  if c.isDigit then
    let n := withDigit (style.precision.getD 0) c
    if maxPrecision < n then ([.broken .precisionTooBig], .text)
    else ([], .precision { style with precision := some n })
  else cutSize style c index

def cutPoint (style : Style) (c : Char) (index : Nat) : Cut :=
  if c == '*' then ([.star .precision], .size style) else cutPrecision style c index

def cutBehindWidth (style : Style) (c : Char) (index : Nat) : Cut :=
  if c == '.' then ([], .point { style with precision := some 0 }) else cutSize style c index

def cutWidth (style : Style) (c : Char) (index : Nat) : Cut :=
  if c.isDigit then
    let n := withDigit style.width c
    if Value.maxIndex < n then ([.broken .widthTooBig], .text)
    else ([], .width { style with width := n })
  else cutBehindWidth style c index

def cutFlags (style : Style) (c : Char) (index : Nat) : Cut :=
  match style.withFlag? c with
  | some style => ([], .flags style)
  | none => if c == '*' then ([.star .width], .behindWidth style) else cutWidth style c index

def cutPercent (c : Char) (index : Nat) : Cut :=
  if c == '%' then ([.char '%'], .text)
  else if c == '(' then ([.broken .templateNeedsMapping], .text)
  else cutFlags {} c index

def cutText (c : Char) : Cut := if c == '%' then ([], .percent) else ([.char c], .text)

/-- What a character is in its place. A part of a directive that is missing leaves its place to
the next one. -/
def Place.cut : Place → Char → Nat → Cut
  | .text, c, _ => cutText c
  | .percent, c, index => cutPercent c index
  | .flags style, c, index => cutFlags style c index
  | .width style, c, index => cutWidth style c index
  | .behindWidth style, c, index => cutBehindWidth style c index
  | .point style, c, index => cutPoint style c index
  | .precision style, c, index => cutPrecision style c index
  | .size style, c, index => cutSize style c index
  | .conversion style, c, index => cutConversion style c index

/-- A template may end in its text only. -/
def Place.atEnd : Place → List Piece
  | .text => []
  | _ => [.broken .templateIncomplete]

/-- The pieces of a template, from a place and an index on. -/
def pieces (place : Place) (index : Nat) : List Char → List Piece
  | [] => place.atEnd
  | c :: cs => (place.cut c index).1 ++ pieces (place.cut c index).2 (index + 1) cs

/-! ## Conversions -/

/-- A value as it is written: zeros may come between the front of a number and its body, and
between the body and its ending. -/
structure Form where
  numeric : Bool
  front : List Char := []
  leading : Nat := 0
  body : List Char
  trailing : Nat := 0
  ending : List Char := []

/-- The text of a form, with `fill` more zeros behind its front. -/
def Form.text (f : Form) (fill : Nat) : List Char :=
  f.front ++ List.replicate (fill + f.leading) '0' ++ f.body ++ List.replicate f.trailing '0'
    ++ f.ending

def Form.length (f : Form) : Nat :=
  f.front.length + f.leading + f.body.length + f.trailing + f.ending.length

/-- The digits of a whole number in base ten, if they are not too many for a text. -/
def decimalDigits (n : Nat) : Except Fault (List Char) :=
  let ds := Nat.toDigits 10 n
  if Reading.maxDigits < ds.length then .error (.intTextTooLong Reading.maxDigits) else .ok ds

/-- A value as text, texts without quotes. -/
def shown : Value → Except Fault (List Char)
  | .int i => (decimalDigits i.natAbs).map fun ds => if i < 0 then '-' :: ds else ds
  | v => .ok v.text.toList

/-- A value as text, texts in quotes. -/
def quoted : Value → Except Fault (List Char)
  | .str s => .ok (Quoted.encode s).toList
  | v => shown v

/-- A character, or its code if it is none of ASCII. -/
def asciiChar (c : Char) : List Char :=
  if c.toNat < 128 then [c] else Quoted.escapeCode c.toNat

/-- Texts are cut off at the precision. -/
def Style.ofText (style : Style) (cs : List Char) : Form where
  numeric := false
  body := match style.precision with
    | some n => cs.take n
    | none => cs

/-- A text of one character, or the character of a code. The codes that stand for halves of a
character have none in a text here and are refused like the codes beyond the last. -/
def character : Value → Except Fault Char
  | .str s =>
    match s.toList with
    | [c] => .ok c
    | _ => .error .notCharacter
  | v =>
    match v.number? with
    | some (.int i) =>
      if 0 ≤ i ∧ i.toNat.isValidChar then .ok (Char.ofNat i.toNat)
      else .error .characterOutOfRange
    | _ => .error .notCharacter

/-- What stands in the place of a sign. -/
def Style.sign (style : Style) (negative : Bool) : List Char :=
  if negative then ['-'] else if style.plus then ['+'] else if style.blank then [' '] else []

/-- A whole number, whose precision is the least number of its digits. -/
def Style.ofDigits (style : Style) (mark : List Char) (i : Int) (ds : List Char) : Form where
  numeric := true
  front := style.sign (i < 0) ++ mark
  leading := style.precision.getD 0 - ds.length
  body := ds

/-- A whole number has to have fewer digits than a precision can ask for. -/
def Style.checkDigits (style : Style) : Except Fault Unit :=
  if maxPrecision - 3 < style.precision.getD 0 then .error .precisionTooLarge else .ok ()

/-- A value as a whole number in base ten, without the fraction that it may have. -/
def decimal (style : Style) (conversion : Char) (v : Value) : Except Fault Form := do
  let i ← match v.number? with
    | some (.int i) => .ok i
    | some (.float x) => Value.wholePart Binary64.truncParts x
    | none => .error (.conversionNotReal conversion v.typeName)
  style.checkDigits
  let ds ← decimalDigits i.natAbs
  return style.ofDigits [] i ds

/-- A whole number in another base. Its mark is written if the alternate form is wanted. -/
def inBase (style : Style) (conversion : Char) (base : Nat) (v : Value) : Except Fault Form :=
  match v.number? with
  | some (.int i) => do
    style.checkDigits
    let ds := Nat.toDigits base i.natAbs
    return style.ofDigits (if style.alternate then ['0', conversion] else []) i
      (if conversion.isUpper then ds.map Char.toUpper else ds)
  | _ => .error (.conversionNotInt conversion v.typeName)

/-- A finite number in the form of a conversion. The point is written before digits, or if the
alternate form is wanted. -/
def Style.ofFinite (style : Style) (conversion : Char) (negative : Bool) (m : Nat) (e : Int) :
    Form :=
  let n := style.precision.getD 6
  let w := match conversion.toLower with
    | 'e' => Places.scientific m e n
    | 'f' => Places.fixed m e n
    | _ => Places.general m e (max n 1) style.alternate
  let hasPoint := style.alternate || !w.fraction.isEmpty
  { numeric := true
    front := style.sign negative
    body := w.whole ++ (if hasPoint then '.' :: w.fraction else [])
    trailing := w.zeros
    ending := w.exponent }

/-- A value as a floating point number. -/
def real (style : Style) (conversion : Char) (v : Value) : Except Fault Form := do
  let x ← v.toReal
  let form := match Binary64.ofFloat x with
    | .nan => ⟨true, style.sign false, 0, ['n', 'a', 'n'], 0, []⟩
    | .infinite negative => ⟨true, style.sign negative, 0, ['i', 'n', 'f'], 0, []⟩
    | .finite negative m e => style.ofFinite conversion negative m e
  return if conversion.isUpper then
    { form with body := form.body.map Char.toUpper, ending := form.ending.map Char.toUpper }
  else form

/-- A value in the form of a conversion. -/
def convert (style : Style) (conversion : Char) (index : Nat) (v : Value) : Except Fault Form :=
  match conversion with
  | 's' => (shown v).map style.ofText
  | 'r' => (quoted v).map style.ofText
  | 'a' => (quoted v).map fun cs => style.ofText (cs.flatMap asciiChar)
  | 'c' => (character v).map fun c => { numeric := false, body := [c] }
  | 'd' | 'i' | 'u' => decimal style conversion v
  | 'o' => inBase style conversion 8 v
  | 'x' | 'X' => inBase style conversion 16 v
  | 'e' | 'E' | 'f' | 'F' | 'g' | 'G' => real style conversion v
  | _ => .error (.unknownConversion conversion index)

/-! ## Filling -/

/-- A form brought to the width: numbers with zeros, if these are wanted, all else with blanks. -/
def Style.align (style : Style) (f : Form) : Except Fault (List Char) :=
  let gap := style.width - f.length
  if Value.maxTextLength < (f.length + gap : Nat) then .error .outOfMemory
  else if style.left then .ok (f.text 0 ++ List.replicate gap ' ')
  else if style.zeros && f.numeric then .ok (f.text gap)
  else .ok (List.replicate gap ' ' ++ f.text 0)

/-- The type that the number of a star has to fit in, and its greatest number. -/
def Star.bound : Star → String × Int
  | .width => ("ssize_t", Value.maxIndex)
  | .precision => ("int", maxPrecision)

/-- A star takes whole numbers of its type. -/
def Star.check (s : Star) (v : Value) : Except Fault Unit :=
  match v.number? with
  | some (.int i) =>
    if i < -s.bound.2 - 1 || s.bound.2 < i then .error (.starTooLarge s.bound.1) else .ok ()
  | _ => .error .starNotInt

/-- The text of pieces that are filled with a value, once it has been `taken` or not. -/
def fill (v : Value) (taken : Bool) : List Piece → Except Fault (List Char)
  | [] => if taken then .ok [] else .error .templateValueUnused
  | .char c :: ps => (fill v taken ps).map (c :: ·)
  | .star s :: ps =>
    if taken then .error .templateValueMissing
    else do
      s.check v
      fill v true ps
  | .directive style conversion index :: ps =>
    if taken then .error .templateValueMissing
    else do
      let form ← convert style conversion index v
      let cs ← style.align form
      let rest ← fill v true ps
      return cs ++ rest
  | .broken f :: _ => .error f

/-- A template filled with a value. -/
def format (template : String) (v : Value) : Except Fault String :=
  (fill v false (pieces .text 0 template.toList)).map String.ofList

end Reckon.Template
