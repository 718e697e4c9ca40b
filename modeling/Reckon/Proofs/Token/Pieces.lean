import Reckon.Proofs.Token.Boundary
/-
  The pieces of a text, one after the other. Each of them is the first piece of what the pieces
  before it leave (`Lexeme.Cut`), so what holds of first pieces holds of all pieces, by induction on
  the cut. Tokens and problems of pieces that stand one after the other are those of the ones in
  front, then those of the others at their distance (`Lexeme.tokens_append`,
  `Lexeme.details_append`), and further on in a text the same pieces have the same tokens and
  problems further on (`Lexeme.tokens_shift`, `Lexeme.details_shift`).
-/
namespace Reckon

/-- A problem further on by `offset` characters. -/
def LexicalDetail.shift (offset : Int) (d : LexicalDetail) : LexicalDetail :=
  { d with position := d.position + offset }

namespace Lexeme

open CharClass

variable {operators : OperatorTrie}

/-! ## First pieces -/

/-- The pieces that can start the text `c :: cs`. -/
inductive Starts (operators : OperatorTrie) (c : Char) (cs : List Char) : Lexeme → Prop
  | blank (ofClass : isWhitespace c = true) : Starts operators c cs ⟨[c], .blank⟩
  | parenthesis (ofClass : isParenthesis c = true) :
    Starts operators c cs ⟨[c], .token .parenthesis⟩
  | identifier (ofClass : isIdentifierStart c = true) :
      Starts operators c cs ⟨c :: cs.takeWhile isIdentifierPart, .token .identifier⟩
  | comma (eq : c = ',') : Starts operators c cs ⟨[c], .token .comma⟩
  | operator {w : List Char} (found : operators.match? (c :: cs) = some w) :
      Starts operators c cs ⟨w, .token .operator⟩
  | number (starts : startsNumber c cs = true) : Starts operators c cs (number (c :: cs))
  | unexpected : Starts operators c cs ⟨[c], .malformed [(.unexpectedCharacter c, 0)]⟩

theorem starts_first (operators : OperatorTrie) (c : Char) (cs : List Char) :
    Starts operators c cs (first operators c cs) := by
  unfold first
  by_cases hblank : isWhitespace c = true
  · rw [if_pos hblank]
    exact .blank hblank
  rw [if_neg hblank]
  by_cases hparen : isParenthesis c = true
  · rw [if_pos hparen]
    exact .parenthesis hparen
  rw [if_neg hparen]
  by_cases hstart : isIdentifierStart c = true
  · rw [if_pos hstart]
    exact .identifier hstart
  rw [if_neg hstart]
  by_cases hcomma : (c == ',') = true
  · rw [if_pos hcomma]
    exact .comma (beq_iff_eq.1 hcomma)
  rw [if_neg hcomma]
  cases hm : operators.match? (c :: cs) with
  | some w => exact .operator hm
  | none =>
    by_cases hnumber : startsNumber c cs = true
    · simp only [hnumber, if_true]
      exact .number hnumber
    · simp only [hnumber, Bool.false_eq_true, if_false]
      exact .unexpected

/-! ## One after the other -/

/-- A text and its pieces. -/
inductive Cut (operators : OperatorTrie) : List Char → List Lexeme → Prop
  | nil : Cut operators [] []
  | cons {c : Char} {cs rest : List Char} {pieces : List Lexeme}
      (text : (first operators c cs).text ++ rest = c :: cs) (below : Cut operators rest pieces) :
      Cut operators (c :: cs) (first operators c cs :: pieces)

theorem cut_split (skip : Nat) (cs : List Char) :
    Cut operators (cs.drop skip) (split operators skip cs) := by
  induction cs generalizing skip with
  | nil =>
    rw [List.drop_nil, split]
    exact .nil
  | cons c cs ih =>
    cases skip with
    | succ skip => exact ih skip
    | zero =>
      obtain ⟨rest, hrest⟩ := first_isPrefix operators c cs
      have hrest' : cs.drop ((first operators c cs).text.length - 1) = rest := by
        have hpos := List.length_pos_iff.2 (first_text_ne_nil operators c cs)
        have hdrop : (c :: cs).drop (first operators c cs).text.length = rest := by
          rw [← hrest, List.drop_left]
        obtain ⟨n, hn⟩ := Nat.exists_eq_add_of_le' hpos
        rw [hn] at hdrop ⊢
        exact hdrop
      have hbelow := ih ((first operators c cs).text.length - 1)
      rw [hrest'] at hbelow
      exact .cons hrest hbelow

/-- The pieces of a text are cut off one by one. -/
theorem cut_ofText (operators : OperatorTrie) (cs : List Char) :
    Cut operators cs (ofText operators cs) := cut_split 0 cs

/-! ## Tokens and problems -/

/-- Where the pieces end that start at `position`. -/
theorem stop_cons (position : Nat) (a : Lexeme) (as : List Lexeme) :
    position + a.text.length + (as.flatMap Lexeme.text).length
      = position + ((a :: as).flatMap Lexeme.text).length := by
  rw [List.flatMap_cons, List.length_append]
  omega

theorem tokens_append (position : Nat) (as bs : List Lexeme) :
    tokens position (as ++ bs)
      = tokens position as ++ tokens (position + (as.flatMap Lexeme.text).length) bs := by
  induction as generalizing position with
  | nil => rfl
  | cons a as ih =>
    rw [List.cons_append, tokens, tokens, ih, stop_cons]
    cases a.role with
    | blank => rfl
    | token kind => rfl
    | malformed problems => rfl

theorem details_append (position : Nat) (as bs : List Lexeme) :
    details position (as ++ bs)
      = details position as ++ details (position + (as.flatMap Lexeme.text).length) bs := by
  induction as generalizing position with
  | nil => rfl
  | cons a as ih =>
    rw [List.cons_append, details, details, ih, stop_cons]
    cases a.role with
    | blank => rfl
    | token kind => rfl
    | malformed problems => exact (List.append_assoc ..).symm

theorem tokens_shift (offset position : Nat) (pieces : List Lexeme) :
    tokens (offset + position) pieces = (tokens position pieces).map (Token.shift offset) := by
  induction pieces generalizing position with
  | nil => rfl
  | cons piece pieces ih =>
    rw [tokens, tokens, Nat.add_assoc, ih]
    cases piece.role with
    | blank => rfl
    | token kind =>
      have hposition : ((offset + position : Nat) : Int) = position + offset := by omega
      rw [hposition]
      rfl
    | malformed problems => rfl

theorem details_shift (offset position : Nat) (pieces : List Lexeme) :
    details (offset + position) pieces
      = (details position pieces).map (LexicalDetail.shift offset) := by
  induction pieces generalizing position with
  | nil => rfl
  | cons piece pieces ih =>
    rw [details, details, Nat.add_assoc, ih]
    cases piece.role with
    | blank => rfl
    | token kind => rfl
    | malformed problems =>
      have hproblem : ∀ p ∈ problems, (⟨p.1, (offset + position + p.2 : Nat)⟩ : LexicalDetail)
          = LexicalDetail.shift offset ⟨p.1, (position + p.2 : Nat)⟩ := by
        intro p _
        have hposition : ((offset + position + p.2 : Nat) : Int)
            = ((position + p.2 : Nat) : Int) + offset := by omega
        rw [hposition]
        rfl
      dsimp only
      rw [List.map_append, List.map_map, List.map_congr_left hproblem]
      rfl

end Lexeme

end Reckon
