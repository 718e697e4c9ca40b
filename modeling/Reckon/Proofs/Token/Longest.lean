import Reckon.Proofs.Token.Literals
import Reckon.Proofs.Token.Pieces
import Reckon.Proofs.Token.Scanning
/-
  Tokens are as long as they can be. At the place of each token of a text

    identifier   starts with a letter or an underscore and takes all identifier characters
    operator     is the longest of the operators that stands there
    constant     is the longest beginning of the rest of the text that is a literal

  (`Token.Kind.Takes`). First this is shown of first pieces, then of whole texts by induction on
  their cut. The main statement is `Scanner.tokens_longest`: a text has such tokens, one behind the
  other and with nothing but blanks left over, or it has problems, in the order of their places.
-/
namespace Reckon

namespace Lexeme

open CharClass

/-! ## First pieces -/

/-- Problems one behind the other, none further than `n`. -/
structure InOrder (n : Nat) (problems : List (LexicalProblem × Nat)) : Prop where
  ordered : problems.Pairwise fun p q => p.2 ≤ q.2
  bounded : ∀ p ∈ problems, p.2 ≤ n

theorem inOrder_single {n k : Nat} (problem : LexicalProblem) (h : k ≤ n) :
    InOrder n [(problem, k)] where
  ordered := List.pairwise_singleton ..
  bounded := by
    intro p hp
    rw [List.mem_singleton.1 hp]
    exact h

theorem role_ofNumber_ne_blank (text : List Char) (problems : List (LexicalProblem × Nat)) :
    (ofNumber text problems).role ≠ .blank := by
  cases problems with
  | nil => simp [ofNumber]
  | cons p ps => simp [ofNumber]

theorem inOrder_ofNumber {text : List Char} {problems ps : List (LexicalProblem × Nat)}
    (h : (ofNumber text problems).role = .malformed ps) (hproblems : InOrder text.length problems) :
    ps ≠ [] ∧ InOrder text.length ps := by
  cases problems with
  | nil => exact absurd h (by simp [ofNumber])
  | cons p qs =>
    obtain rfl : p :: qs = ps := Role.malformed.inj h
    exact ⟨List.cons_ne_nil p qs, hproblems⟩

theorem inOrder_decimal {cs : List Char} {ps : List (LexicalProblem × Nat)}
    (h : (decimal cs).role = .malformed ps) : ps ≠ [] ∧ InOrder (decimal cs).text.length ps := by
  rw [decimal_eq] at h ⊢
  refine inOrder_ofNumber h ?_
  have hle : (wholePart cs ++ (fractionPart cs).1).length
      ≤ (wholePart cs ++ (fractionPart cs).1 ++ (exponentPart cs).1).length := by
    simp only [List.length_append]
    omega
  cases (fractionPart cs).2 with
  | false =>
    cases (exponentPart cs).2 with
    | false => exact ⟨List.Pairwise.nil, List.forall_mem_nil _⟩
    | true => exact inOrder_single _ (Nat.le_refl _)
  | true =>
    cases (exponentPart cs).2 with
    | false => exact inOrder_single _ hle
    | true =>
      refine ⟨List.pairwise_cons.2 ⟨?_, List.pairwise_singleton ..⟩, ?_⟩
      · intro p hp
        rw [List.mem_singleton.1 hp]
        exact hle
      · intro p hp
        rcases List.mem_cons.1 hp with rfl | hp
        · exact hle
        · rw [List.mem_singleton.1 hp]
          exact Nat.le_refl _

theorem inOrder_number {cs : List Char} {ps : List (LexicalProblem × Nat)}
    (h : (number cs).role = .malformed ps) : ps ≠ [] ∧ InOrder (number cs).text.length ps := by
  rcases number_cases cs with ⟨x, tail, rfl, hx⟩ | ⟨-, hdecimal⟩
  · simp only [number, hx, if_true] at h ⊢
    refine inOrder_ofNumber h ?_
    cases (tail.takeWhile isHexDigit).isEmpty with
    | false => exact ⟨List.Pairwise.nil, List.forall_mem_nil _⟩
    | true => exact inOrder_single _ (Nat.le_add_left 2 _)
  · rw [hdecimal] at h ⊢
    exact inOrder_decimal h

end Lexeme

open Lexeme CharClass

/-- What a token of a kind takes of the rest `cs` of a text. -/
def Token.Kind.Takes (ops : List String) : Token.Kind → List Char → List Char → Prop
  | .identifier, w, cs => (∃ c, w.head? = some c ∧ isIdentifierStart c = true)
      ∧ Longest (fun u => ∀ c ∈ u, isIdentifierPart c = true) w cs
  | .operator, w, cs => Longest (fun u => String.ofList u ∈ ops) w cs
  | .constant, w, cs => Longest IsLiteral w cs
  | .parenthesis, w, cs => w <+: cs ∧ (w = ['('] ∨ w = [')'])
  | .comma, w, cs => w <+: cs ∧ w = [',']

namespace Lexeme

theorem longest_match {ops : List String} {cs w : List Char}
    (h : (OperatorTrie.ofList ops).match? cs = some w) :
    Longest (fun u => String.ofList u ∈ ops) w cs := by
  obtain ⟨hhas, hpre⟩ := Trie.of_longestMatch _ _ _ h
  refine ⟨hpre, (OperatorTrie.has_ofList.1 hhas).2, fun u hu hops => ?_⟩
  by_cases hne : u = []
  · rw [hne]
    exact Nat.zero_le _
  · obtain ⟨v, hv, hle⟩ := Trie.exists_longestMatch (OperatorTrie.ofList ops).root cs u
      (OperatorTrie.has_ofList.2 ⟨hne, hops⟩) hu
    obtain rfl : w = v := Option.some.inj (h.symm.trans hv)
    exact hle

theorem isIdentifierPart_of_isIdentifierStart {c : Char} (h : isIdentifierStart c = true) :
    isIdentifierPart c = true := by
  unfold isIdentifierStart at h
  unfold isIdentifierPart
  rw [h, Bool.true_or]

/-- A token takes as much as its kind can take. -/
theorem takes_first {ops : List String} {c : Char} {cs : List Char} {kind : Token.Kind}
    (h : (first (.ofList ops) c cs).role = .token kind) :
    kind.Takes ops (first (.ofList ops) c cs).text (c :: cs) := by
  have hstarts := starts_first (.ofList ops) c cs
  generalize first (.ofList ops) c cs = piece at h hstarts ⊢
  cases hstarts with
  | blank => exact absurd h (by simp)
  | unexpected => exact absurd h (by simp)
  | parenthesis hparen =>
    obtain rfl := Role.token.inj h
    unfold isParenthesis at hparen
    exact ⟨⟨cs, rfl⟩, by simpa using hparen⟩
  | identifier hstart =>
    obtain rfl := Role.token.inj h
    have hall : c :: cs.takeWhile isIdentifierPart = (c :: cs).takeWhile isIdentifierPart :=
      (List.takeWhile_cons_of_pos (isIdentifierPart_of_isIdentifierStart hstart)).symm
    refine ⟨⟨c, rfl, hstart⟩, ?_⟩
    rw [hall]
    exact longest_takeWhile isIdentifierPart (c :: cs)
  | comma hcomma =>
    obtain rfl := Role.token.inj h
    exact ⟨⟨cs, rfl⟩, by rw [hcomma]⟩
  | operator hfound =>
    obtain rfl := Role.token.inj h
    exact longest_match hfound
  | number hnumber =>
    obtain ⟨rfl, hliteral⟩ := isLiteral_number hnumber h
    exact ⟨number_isPrefix _, hliteral, fun u hu hu' => hu'.length_le hu⟩

variable {operators : OperatorTrie}

/-- A piece with problems has at least one, and they are in order within the piece. -/
theorem inOrder_first {c : Char} {cs : List Char} {ps : List (LexicalProblem × Nat)}
    (h : (first operators c cs).role = .malformed ps) :
    ps ≠ [] ∧ InOrder (first operators c cs).text.length ps := by
  have hstarts := starts_first operators c cs
  generalize first operators c cs = piece at h hstarts ⊢
  cases hstarts with
  | blank => exact absurd h (by simp)
  | parenthesis => exact absurd h (by simp)
  | identifier => exact absurd h (by simp)
  | comma => exact absurd h (by simp)
  | operator => exact absurd h (by simp)
  | number => exact inOrder_number h
  | unexpected =>
    obtain rfl := Role.malformed.inj h
    exact ⟨List.cons_ne_nil _ [], inOrder_single _ (Nat.zero_le _)⟩

theorem isWhitespace_of_first {c : Char} {cs : List Char}
    (h : (first operators c cs).role = .blank) :
    isWhitespace c = true ∧ (first operators c cs).text = [c] := by
  have hstarts := starts_first operators c cs
  generalize first operators c cs = piece at h hstarts ⊢
  cases hstarts with
  | blank hblank => exact ⟨hblank, rfl⟩
  | parenthesis => exact absurd h (by simp)
  | identifier => exact absurd h (by simp)
  | comma => exact absurd h (by simp)
  | operator => exact absurd h (by simp)
  | unexpected => exact absurd h (by simp)
  | number =>
    rcases number_cases (c :: cs) with ⟨x, tail, heq, hx⟩ | ⟨-, hdecimal⟩
    · rw [heq] at h
      simp only [number, hx, if_true] at h
      exact absurd h (role_ofNumber_ne_blank _ _)
    · rw [hdecimal] at h
      exact absurd h (role_ofNumber_ne_blank _ _)

end Lexeme

/-! ## Whole texts -/

/-- Tokens that cover the text `cs` but for blanks, its first character being at `position`. -/
structure Token.Cover (ops : List String) (position : Nat) (cs : List Char) (ts : List Token) :
    Prop where
  takes : ∀ t ∈ ts, ∃ n : Nat, t.position = (position + n : Nat) ∧ t.text ≠ ""
    ∧ (cs.drop n).take t.text.toList.length = t.text.toList
    ∧ t.kind.Takes ops t.text.toList (cs.drop n)
  ordered : ts.Pairwise fun t u => t.stop ≤ u.position
  blank : ∀ (n : Nat) (c : Char), cs[n]? = some c → isWhitespace c = true
    ∨ ∃ t ∈ ts, t.position ≤ (position + n : Nat) ∧ ((position + n : Nat) : Int) < t.stop

/-- Problems in the order of their places, all from `low` to `high`. -/
structure LexicalDetail.InOrder (low high : Nat) (ds : List LexicalDetail) : Prop where
  ordered : ds.Pairwise fun d e => d.position ≤ e.position
  bounded : ∀ d ∈ ds, (low : Int) ≤ d.position ∧ d.position ≤ high

namespace Token.Cover

variable {ops : List String} {position : Nat} {w rest : List Char} {ts : List Token}

theorem nil : Cover ops position [] [] where
  takes := List.forall_mem_nil _
  ordered := List.Pairwise.nil
  blank := fun n c h => absurd h (by simp)

/-- What is behind a piece is in the same place of the whole text. -/
theorem takes_behind (h : Cover ops (position + w.length) rest ts) :
    ∀ t ∈ ts, ∃ n : Nat, t.position = (position + n : Nat) ∧ t.text ≠ ""
      ∧ ((w ++ rest).drop n).take t.text.toList.length = t.text.toList
      ∧ t.kind.Takes ops t.text.toList ((w ++ rest).drop n) := by
  intro t ht
  obtain ⟨n, hposition, hne, hslice, htakes⟩ := h.takes t ht
  have hdrop : (w ++ rest).drop (w.length + n) = rest.drop n := by
    rw [← List.drop_drop, List.drop_left]
  refine ⟨w.length + n, ?_, hne, ?_, ?_⟩
  · rw [hposition, Nat.add_assoc]
  · rw [hdrop]
    exact hslice
  · rw [hdrop]
    exact htakes

theorem blank_behind (h : Cover ops (position + w.length) rest ts) {n : Nat} {c : Char}
    (hn : w.length ≤ n) (hc : (w ++ rest)[n]? = some c) : isWhitespace c = true
      ∨ ∃ t ∈ ts, t.position ≤ (position + n : Nat) ∧ ((position + n : Nat) : Int) < t.stop := by
  rw [List.getElem?_append_right hn] at hc
  have hplace : position + w.length + (n - w.length) = position + n := by omega
  rw [← hplace]
  exact h.blank _ c hc

/-- A blank in front. -/
theorem skip (h : Cover ops (position + w.length) rest ts)
    (hw : ∀ c ∈ w, isWhitespace c = true) : Cover ops position (w ++ rest) ts where
  takes := h.takes_behind
  ordered := h.ordered
  blank := by
    intro n c hc
    by_cases hn : n < w.length
    · rw [List.getElem?_append_left hn] at hc
      exact Or.inl (hw c (List.mem_of_getElem? hc))
    · exact h.blank_behind (Nat.le_of_not_lt hn) hc

/-- A token in front. -/
theorem cons {kind : Token.Kind} (h : Cover ops (position + w.length) rest ts) (hne : w ≠ [])
    (hw : kind.Takes ops w (w ++ rest)) :
    Cover ops position (w ++ rest) (⟨kind, String.ofList w, position⟩ :: ts) where
  takes := by
    intro t ht
    rcases List.mem_cons.1 ht with rfl | ht
    · refine ⟨0, rfl, ?_, ?_, ?_⟩
      · intro hempty
        exact hne (String.ofList_eq_empty_iff.1 hempty)
      · rw [String.toList_ofList, List.drop_zero, List.take_left]
      · rw [String.toList_ofList, List.drop_zero]
        exact hw
    · exact h.takes_behind t ht
  ordered := by
    refine List.pairwise_cons.2 ⟨fun u hu => ?_, h.ordered⟩
    obtain ⟨n, hposition, -, -, -⟩ := h.takes u hu
    rw [hposition]
    show (position : Int) + ((String.ofList w).toList.length : Nat) ≤ _
    rw [String.toList_ofList]
    omega
  blank := by
    intro n c hc
    by_cases hn : n < w.length
    · refine Or.inr ⟨_, List.mem_cons_self .., ?_, ?_⟩
      · show (position : Int) ≤ _
        omega
      · show _ < (position : Int) + ((String.ofList w).toList.length : Nat)
        rw [String.toList_ofList]
        omega
    · rcases h.blank_behind (Nat.le_of_not_lt hn) hc with hblank | ⟨t, ht, hcover⟩
      · exact Or.inl hblank
      · exact Or.inr ⟨t, List.mem_cons_of_mem _ ht, hcover⟩

end Token.Cover

namespace Lexeme

/-- The pieces of a text without problems: its tokens cover it. -/
theorem Cut.cover {ops : List String} {cs : List Char} {pieces : List Lexeme}
    (h : Cut (.ofList ops) cs pieces) {position : Nat} (hdetails : details position pieces = []) :
    Token.Cover ops position cs (tokens position pieces) := by
  induction h generalizing position with
  | nil => exact Token.Cover.nil
  | @cons c cs rest pieces htext _ ih =>
    have hne := first_text_ne_nil (.ofList ops) c cs
    have hblank : (first (.ofList ops) c cs).role = .blank → _ := isWhitespace_of_first
    have htakes : ∀ kind, (first (.ofList ops) c cs).role = .token kind → _ :=
      fun kind => takes_first
    have hmalformed : ∀ ps, (first (.ofList ops) c cs).role = .malformed ps → _ :=
      fun ps => inOrder_first
    rw [← htext] at htakes ⊢
    generalize first (.ofList ops) c cs = piece at hne hblank htakes hmalformed hdetails ⊢
    rw [tokens]
    rw [details] at hdetails
    cases hrole : piece.role with
    | blank =>
      rw [hrole] at hdetails
      obtain ⟨hc, hpiece⟩ := hblank hrole
      refine (ih hdetails).skip fun x hx => ?_
      rw [hpiece] at hx
      rw [List.mem_singleton.1 hx]
      exact hc
    | token kind =>
      rw [hrole] at hdetails
      exact (ih hdetails).cons hne (htakes kind hrole)
    | malformed ps =>
      rw [hrole] at hdetails
      obtain ⟨hps, -⟩ := List.append_eq_nil_iff.1 hdetails
      exact absurd (List.map_eq_nil_iff.1 hps) (hmalformed ps hrole).1

/-- The problems of a text are in order, and within the text. -/
theorem Cut.inOrder {operators : OperatorTrie} {cs : List Char} {pieces : List Lexeme}
    (h : Cut operators cs pieces) (position : Nat) :
    LexicalDetail.InOrder position (position + cs.length) (details position pieces) := by
  induction h generalizing position with
  | nil => exact ⟨List.Pairwise.nil, List.forall_mem_nil _⟩
  | @cons c cs rest pieces htext _ ih =>
    have hproblems : ∀ ps, (first operators c cs).role = .malformed ps → _ :=
      fun ps => inOrder_first
    rw [← htext, List.length_append]
    generalize first operators c cs = piece at hproblems ⊢
    have hbehind := ih (position + piece.text.length)
    have hrest : ∀ d ∈ details (position + piece.text.length) pieces, (position : Int) ≤ d.position
        ∧ d.position ≤ (position + (piece.text.length + rest.length) : Nat) := by
      intro d hd
      have := hbehind.bounded d hd
      omega
    rw [details]
    cases hrole : piece.role with
    | blank => exact ⟨hbehind.ordered, hrest⟩
    | token kind => exact ⟨hbehind.ordered, hrest⟩
    | malformed ps =>
      obtain ⟨-, hps⟩ := hproblems ps hrole
      refine ⟨List.pairwise_append.2 ⟨?_, hbehind.ordered, ?_⟩, ?_⟩
      · refine List.pairwise_map.2 (hps.ordered.imp fun {p q} hpq => ?_)
        show ((position + p.2 : Nat) : Int) ≤ (position + q.2 : Nat)
        omega
      · intro d hd e he
        obtain ⟨p, hp, rfl⟩ := List.mem_map.1 hd
        have hp := hps.bounded p hp
        have he := (hbehind.bounded e he).1
        show ((position + p.2 : Nat) : Int) ≤ _
        omega
      · intro d hd
        rcases List.mem_append.1 hd with hd | hd
        · obtain ⟨p, hp, rfl⟩ := List.mem_map.1 hd
          have hp := hps.bounded p hp
          show (position : Int) ≤ (position + p.2 : Nat) ∧ ((position + p.2 : Nat) : Int) ≤ _
          omega
        · exact hrest d hd

end Lexeme

/-! ## Scanning -/

/-- What scanning comes to: a text that is too long, tokens that cover it, or all its problems. -/
theorem Scanner.tokens_longest {d : Datum} {ops : List String} (hops : operators? d = .ok ops)
    (limits : Limits) (text : String) :
    (limits.expressionLength < text.toList.length ∧ tokensOf d limits text
        = .error (.error (.ofLimit limits .expressionLength text.toList.length)))
      ∨ (∃ ts, tokensOf d limits text = .ok ts ∧ Token.Cover ops 0 text.toList ts)
      ∨ ∃ summary first others, tokensOf d limits text
          = .error (.error { problem := .lexical summary (first :: others),
                             position := some first.position, expression := some text })
        ∧ LexicalDetail.InOrder 0 text.toList.length (first :: others) := by
  rw [tokensOf_eq hops]
  have hcut := Lexeme.cut_ofText (.ofList ops) text.toList
  by_cases hlong : limits.expressionLength < text.toList.length
  · exact Or.inl ⟨hlong, Token.ofText_eq_error_of_long hlong⟩
  · right
    rw [Token.ofText_of_short (Int.not_lt.1 hlong)]
    cases hdetails : (Scan.ofText (.ofList ops) text).details with
    | nil => exact Or.inl ⟨_, Scan.result_eq_ok_iff.2 ⟨hdetails, rfl⟩, hcut.cover hdetails⟩
    | cons first others =>
      have hinOrder : LexicalDetail.InOrder 0 text.toList.length
          (Scan.ofText (.ofList ops) text).details := by
        have := hcut.inOrder 0
        rwa [Nat.zero_add] at this
      rw [hdetails] at hinOrder
      exact Or.inr ⟨_, first, others, Scan.result_eq_error hdetails text, hinOrder⟩

theorem Scanner.tokens_longest_power : operators? (.list [.str "*", .str "**"]) = .ok ["*", "**"]
    ∧ Token.Cover ["*", "**"] 0 "2**x 0x1F".toList
      [⟨.constant, "2", 0⟩, ⟨.operator, "**", 1⟩, ⟨.identifier, "x", 3⟩,
        ⟨.constant, "0x1F", 5⟩] := by
  have hops : operators? (.list [.str "*", .str "**"]) = .ok ["*", "**"] := rfl
  have htokens : tokensOf (.list [.str "*", .str "**"]) {} "2**x 0x1F" = .ok
      [⟨.constant, "2", 0⟩, ⟨.operator, "**", 1⟩, ⟨.identifier, "x", 3⟩,
        ⟨.constant, "0x1F", 5⟩] := by
    rfl
  refine ⟨hops, ?_⟩
  obtain ⟨-, h⟩ | ⟨ts, h, hcover⟩ | ⟨_, _, _, h, -⟩ := tokens_longest hops {} "2**x 0x1F"
  · exact absurd (htokens.symm.trans h) (by simp)
  · obtain rfl := Except.ok.inj (htokens.symm.trans h)
    exact hcover
  · exact absurd (htokens.symm.trans h) (by simp)

end Reckon
