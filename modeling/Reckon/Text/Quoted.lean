import Reckon.Text.Unicode
/-
  Quoted text, as messages show the texts they speak about. A text stands between single
  quotes, or between double quotes when it holds a single quote and no double quote. The
  backslash, the quote in use, line feed, carriage return and tab are written with a backslash,
  and a character that cannot be shown by its code in hexadecimal.
-/
namespace Reckon.Quoted

def singleQuote : Char := '\x27'

def doubleQuote : Char := '\x22'

def backslash : Char := '\x5c'

/-- The quote that a text is put between. -/
def quoteFor (cs : List Char) : Char :=
  if cs.contains singleQuote && !cs.contains doubleQuote then doubleQuote else singleQuote

/-- A number in hexadecimal, filled with zeros up to `width` digits. -/
def hexPadded (width n : Nat) : List Char :=
  let digits := Nat.toDigits 16 n
  List.replicate (width - digits.length) '0' ++ digits

/-- A character by its code: two, four or eight digits, as few as its code allows. -/
def escapeCode (n : Nat) : List Char :=
  if n < 0x100 then backslash :: 'x' :: hexPadded 2 n
  else if n < 0x10000 then backslash :: 'u' :: hexPadded 4 n
  else backslash :: 'U' :: hexPadded 8 n

/-- One character between quotes `q`. -/
def escapeChar (q c : Char) : List Char :=
  if c == q || c == backslash then [backslash, c]
  else if c == '\n' then [backslash, 'n']
  else if c == '\r' then [backslash, 'r']
  else if c == '\t' then [backslash, 't']
  else if Unicode.isPrintable c then [c]
  else escapeCode c.toNat

/-- A text between quotes. -/
def encode (s : String) : String :=
  let q := quoteFor s.toList
  String.ofList (q :: (s.toList.flatMap (escapeChar q) ++ [q]))

end Reckon.Quoted
