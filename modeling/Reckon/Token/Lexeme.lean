import Reckon.Error
import Reckon.Text.CharClass
import Reckon.Token
import Reckon.Trie
/-
  Lexemes: a text cut into pieces, each a blank, a token or a malformed piece, with nothing left
  out. Every piece is as long as the rule that starts it allows: an identifier takes all
  identifier characters, an operator is the longest one that fits, a number takes its digits,
  fraction and exponent. A malformed piece carries what is wrong with it, so one pass finds
  everything that is wrong with a text.

  `flatMap_ofText` says that the pieces of a text put together are the text.
-/
namespace Reckon

/-- What a piece of text is. Problems are given with their distance from the piece's start. -/
inductive Lexeme.Role where
  | blank
  | token (kind : Token.Kind)
  | malformed (problems : List (LexicalProblem × Nat))
  deriving DecidableEq, Repr

/-- A piece of text. -/
structure Lexeme where
  text : List Char
  role : Lexeme.Role
  deriving DecidableEq, Repr

namespace Lexeme

open CharClass

/-- A number literal with what is wrong with it, if anything. -/
def ofNumber (text : List Char) (problems : List (LexicalProblem × Nat)) : Lexeme :=
  ⟨text, if problems.isEmpty then .token .constant else .malformed problems⟩

/-- A point and the digits after it, if the text starts with a point; `true` when there are no
digits. -/
def fraction : List Char → List Char × Bool
  | '.' :: cs => ('.' :: cs.takeWhile Char.isDigit, (cs.takeWhile Char.isDigit).isEmpty)
  | _ => ([], false)

/-- The sign at the start of a text. -/
def sign : List Char → List Char
  | c :: _ => if isSign c then [c] else []
  | [] => []

/-- An exponent, if the text starts with its mark; `true` when it has no digits. -/
def exponent : List Char → List Char × Bool
  | c :: cs =>
    if isExponentMarker c then
      let s := sign cs
      let digits := (cs.drop s.length).takeWhile Char.isDigit
      (c :: (s ++ digits), digits.isEmpty)
    else ([], false)
  | [] => ([], false)

/-- A decimal literal: digits, a fraction and an exponent. -/
def decimal (cs : List Char) : Lexeme :=
  let whole := cs.takeWhile Char.isDigit
  let (frac, noFraction) := fraction (cs.drop whole.length)
  let start := whole ++ frac
  let (expo, noExponent) := exponent (cs.drop start.length)
  ofNumber (start ++ expo)
    ((if noFraction then [(.missingFractionDigits, start.length)] else [])
      ++ (if noExponent then [(.missingExponentDigits, (start ++ expo).length)] else []))

/-- A number literal at the start of a text: hexadecimal after `0x`, decimal otherwise. -/
def number : List Char → Lexeme
  | '0' :: c :: cs =>
    if isHexMarker c then
      let digits := cs.takeWhile isHexDigit
      ofNumber ('0' :: c :: digits) (if digits.isEmpty then [(.missingHexDigits, 2)] else [])
    else decimal ('0' :: c :: cs)
  | cs => decimal cs

/-- Whether a number literal starts with `c` before `cs`. -/
def startsNumber (c : Char) (cs : List Char) : Bool :=
  c.isDigit || (c == '.' && cs.head?.any Char.isDigit)

/-- The first piece of the text `c :: cs`. -/
def first (operators : OperatorTrie) (c : Char) (cs : List Char) : Lexeme :=
  if isWhitespace c then ⟨[c], .blank⟩
  else if isParenthesis c then ⟨[c], .token .parenthesis⟩
  else if isIdentifierStart c then
    ⟨c :: cs.takeWhile isIdentifierPart, .token .identifier⟩
  else if c == ',' then ⟨[c], .token .comma⟩
  else
    match operators.match? (c :: cs) with
    | some operator => ⟨operator, .token .operator⟩
    | none =>
      if startsNumber c cs then number (c :: cs)
      else ⟨[c], .malformed [(.unexpectedCharacter c, 0)]⟩

/-- The pieces of a text whose first `skip` characters belong to a piece before it. -/
def split (operators : OperatorTrie) : (skip : Nat) → List Char → List Lexeme
  | _, [] => []
  | skip + 1, _ :: cs => split operators skip cs
  | 0, c :: cs =>
    let piece := first operators c cs
    piece :: split operators (piece.text.length - 1) cs

/-- The pieces of a text. -/
def ofText (operators : OperatorTrie) (cs : List Char) : List Lexeme := split operators 0 cs

/-! ## The text of pieces -/

theorem ofNumber_text (text : List Char) (ps : List (LexicalProblem × Nat)) :
    (ofNumber text ps).text = text := rfl

theorem fraction_isPrefix (cs : List Char) : (fraction cs).1 <+: cs := by
  unfold fraction
  split
  · simpa using List.takeWhile_prefix _
  · exact List.nil_prefix

theorem sign_isPrefix (cs : List Char) : sign cs <+: cs := by
  unfold sign
  split
  · split <;> simp
  · exact List.nil_prefix

/-- A prefix of a text and a prefix of what follows it are one prefix. -/
theorem append_isPrefix {a b cs : List Char} (ha : a <+: cs) (hb : b <+: cs.drop a.length) :
    a ++ b <+: cs := by
  obtain ⟨r, rfl⟩ := ha
  rw [List.drop_left] at hb
  exact (List.prefix_append_right_inj a).2 hb

theorem exponent_isPrefix (cs : List Char) : (exponent cs).1 <+: cs := by
  unfold exponent
  split
  · split
    · simpa using append_isPrefix (sign_isPrefix _) (List.takeWhile_prefix _)
    · exact List.nil_prefix
  · exact List.nil_prefix

theorem decimal_isPrefix (cs : List Char) : (decimal cs).text <+: cs :=
  append_isPrefix (append_isPrefix (List.takeWhile_prefix _) (fraction_isPrefix _)) (exponent_isPrefix _)

theorem number_isPrefix (cs : List Char) : (number cs).text <+: cs := by
  unfold number
  split
  · split
    · simpa [ofNumber_text] using List.takeWhile_prefix _
    · exact decimal_isPrefix _
  · exact decimal_isPrefix _

/-- A piece is a part of the text: the text starts with it. -/
theorem first_isPrefix (operators : OperatorTrie) (c : Char) (cs : List Char) :
    (first operators c cs).text <+: c :: cs := by
  unfold first
  split
  · simp
  split
  · simp
  split
  · simpa using List.takeWhile_prefix _
  split
  · simp
  split
  · rename_i h
    exact (Trie.of_longestMatch _ _ _ h).2
  · split
    · exact number_isPrefix _
    · simp

theorem decimal_text_ne_nil {c : Char} {cs : List Char} (h : startsNumber c cs = true) :
    (decimal (c :: cs)).text ≠ [] := by
  simp only [startsNumber, Bool.or_eq_true, Bool.and_eq_true] at h
  rcases h with h | ⟨h, -⟩
  · simp [decimal, ofNumber_text, h]
  · have hc : c = '.' := by simpa using h
    subst hc
    have hd : ('.' : Char).isDigit = false := by decide
    simp [decimal, ofNumber_text, fraction, hd]

/-- A piece has at least one character. -/
theorem first_text_ne_nil (operators : OperatorTrie) (c : Char) (cs : List Char) :
    (first operators c cs).text ≠ [] := by
  unfold first
  split
  · simp
  split
  · simp
  split
  · simp
  split
  · simp
  split
  · rename_i w h
    rintro rfl
    simpa [Trie.has_nil] using (Trie.of_longestMatch _ _ _ h).1
  · split
    · rename_i h
      unfold number
      split
      · split
        · simp [ofNumber_text]
        · rename_i heq _
          rw [← heq]
          exact decimal_text_ne_nil h
      · exact decimal_text_ne_nil h
    · simp

/-- The pieces put together are the text behind the part that is skipped. -/
theorem flatMap_split (operators : OperatorTrie) (skip : Nat) (cs : List Char) :
    (split operators skip cs).flatMap Lexeme.text = cs.drop skip := by
  induction cs generalizing skip with
  | nil => cases skip <;> simp [split]
  | cons c cs ih =>
    cases skip with
    | succ skip => simpa [split] using ih skip
    | zero =>
      obtain ⟨r, hr⟩ := first_isPrefix operators c cs
      have hne := first_text_ne_nil operators c cs
      cases ht : (first operators c cs).text with
      | nil => exact absurd ht hne
      | cons d ds =>
        rw [ht, List.cons_append] at hr
        obtain ⟨rfl, rfl⟩ := List.cons.inj hr
        simp [split, ht, ih]

/-- Cutting a text into pieces loses nothing and adds nothing. -/
theorem flatMap_ofText (operators : OperatorTrie) (cs : List Char) :
    (ofText operators cs).flatMap Lexeme.text = cs := by
  simp [ofText, flatMap_split]

/-! ## Tokens and problems -/

/-- The tokens among pieces that start at `position`. -/
def tokens (position : Nat) : List Lexeme → List Token
  | [] => []
  | piece :: pieces =>
    let rest := tokens (position + piece.text.length) pieces
    match piece.role with
    | .token kind => ⟨kind, String.ofList piece.text, position⟩ :: rest
    | _ => rest

/-- What is wrong with pieces that start at `position`. -/
def details (position : Nat) : List Lexeme → List LexicalDetail
  | [] => []
  | piece :: pieces =>
    let rest := details (position + piece.text.length) pieces
    match piece.role with
    | .malformed problems =>
      problems.map (fun p => ⟨p.1, (position + p.2 : Nat)⟩) ++ rest
    | _ => rest

end Lexeme

/-- A text as tokens, or everything that is wrong with it. -/
structure Scan where
  tokens : List Token
  details : List LexicalDetail
  deriving DecidableEq, Repr

namespace Scan

def ofText (operators : OperatorTrie) (source : String) : Scan :=
  let pieces := Lexeme.ofText operators source.toList
  ⟨Lexeme.tokens 0 pieces, Lexeme.details 0 pieces⟩

/-- The tokens, unless something is wrong. -/
def result (s : Scan) (source : String) : Except Failure (List Token) :=
  match s.details with
  | [] => .ok s.tokens
  | d :: ds => .error (.error (Error.ofDetails d ds source))

end Scan

/-- The tokens of an expression. -/
def Token.ofText (operators : OperatorTrie) (limits : Limits) (source : String) :
    Except Failure (List Token) := do
  limits.check .expressionLength source.toList.length
  (Scan.ofText operators source).result source

end Reckon
