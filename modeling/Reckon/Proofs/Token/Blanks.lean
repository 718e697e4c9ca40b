import Reckon.Proofs.Token.Pieces
import Reckon.Proofs.Token.Scanning
/-
  Blanks part a text. Every rule of the scanner looks ahead, but none of them sees a difference
  between a blank and the end of the text: the first piece of a text is the first piece of the text
  with a blank and anything else behind it (`Lexeme.first_append_spaced`). So the pieces of two
  texts with blanks between them are the pieces of both (`Lexeme.ofText_append`), malformed ones
  included, and the main statement follows: what is found in two texts with blanks between them is
  what is found in the first and, further on, what is found in the second
  (`Scanner.tokens_append_blank`). Operators are looked for everywhere, so none may hold a blank.
-/
namespace Reckon

namespace Lexeme

open CharClass

/-! ## In front of a blank -/

/-- A text that starts with a blank, or is at its end. -/
def Spaced (rest : List Char) : Prop := ∀ c, rest.head? = some c → isWhitespace c = true

theorem eq_of_isWhitespace {c : Char} (h : isWhitespace c = true) :
    c = ' ' ∨ c = '\t' ∨ c = '\n' ∨ c = '\r' ∨ c = '\x0c' ∨ c = '\x0b' := by
  unfold isWhitespace at h
  simpa [or_assoc] using h

variable {rest : List Char}

/-- A class without blanks stops at them. -/
theorem Spaced.stops (h : Spaced rest) {p : Char → Bool} (hspace : p ' ' = false)
    (htab : p '\t' = false) (hline : p '\n' = false) (hreturn : p '\r' = false)
    (hfeed : p '\x0c' = false) (hvertical : p '\x0b' = false) : Stops p rest := by
  intro c hc
  obtain rfl | rfl | rfl | rfl | rfl | rfl := eq_of_isWhitespace (h c hc)
  · exact hspace
  · exact htab
  · exact hline
  · exact hreturn
  · exact hfeed
  · exact hvertical

theorem Spaced.stops_isDigit (h : Spaced rest) : Stops Char.isDigit rest :=
  h.stops (by decide) (by decide) (by decide) (by decide) (by decide) (by decide)

theorem Spaced.head_ne (h : Spaced rest) {c : Char} (hc : isWhitespace c = false) :
    rest.head? ≠ some c := by
  intro heq
  have := h c heq
  rw [hc] at this
  exact absurd this (by decide)

/-- What is taken of a text ends with it where a stop follows. -/
theorem takeWhile_append_stops {p : Char → Bool} (h : Stops p rest) (cs : List Char) :
    (cs ++ rest).takeWhile p = cs.takeWhile p := by
  induction cs with
  | nil =>
    have := takeWhile_append_of_stops h []
    rwa [List.takeWhile_nil, List.nil_append] at this
  | cons c cs ih =>
    rw [List.cons_append, List.takeWhile_cons, List.takeWhile_cons, ih]

theorem drop_append_of_isPrefix {w cs : List Char} (h : w <+: cs) :
    (cs ++ rest).drop w.length = cs.drop w.length ++ rest :=
  List.drop_append_of_le_length h.length_le

theorem fraction_append_spaced (h : Spaced rest) (cs : List Char) :
    fraction (cs ++ rest) = fraction cs := by
  by_cases hpoint : cs.head? = some '.'
  · cases cs with
    | nil => exact absurd hpoint (by simp)
    | cons c cs =>
      obtain rfl : c = '.' := Option.some.inj hpoint
      simp only [List.cons_append, fraction, takeWhile_append_stops h.stops_isDigit]
  · rw [fraction_eq_nil hpoint]
    refine fraction_eq_nil ?_
    cases cs with
    | nil => exact h.head_ne (by decide)
    | cons c cs => exact hpoint

theorem sign_append_spaced (h : Spaced rest) (cs : List Char) : sign (cs ++ rest) = sign cs := by
  cases cs with
  | nil =>
    exact sign_of_stops
      (h.stops (by decide) (by decide) (by decide) (by decide) (by decide) (by decide))
  | cons c cs => rfl

theorem exponent_append_spaced (h : Spaced rest) (cs : List Char) :
    exponent (cs ++ rest) = exponent cs := by
  cases cs with
  | nil =>
    exact exponent_of_stops
      (h.stops (by decide) (by decide) (by decide) (by decide) (by decide) (by decide))
  | cons c cs =>
    simp only [List.cons_append, exponent, sign_append_spaced h,
      drop_append_of_isPrefix (sign_isPrefix cs), takeWhile_append_stops h.stops_isDigit]

theorem decimal_append_spaced (h : Spaced rest) (cs : List Char) :
    decimal (cs ++ rest) = decimal cs := by
  have hwhole : wholePart (cs ++ rest) = wholePart cs := takeWhile_append_stops h.stops_isDigit cs
  have hfrac : fractionPart (cs ++ rest) = fractionPart cs := by
    rw [fractionPart, hwhole, drop_append_of_isPrefix (wholePart_isPrefix cs),
      fraction_append_spaced h]
    rfl
  have hstart : wholePart cs ++ (fractionPart cs).1 <+: cs :=
    append_isPrefix (wholePart_isPrefix cs) (fraction_isPrefix _)
  have hexpo : exponentPart (cs ++ rest) = exponentPart cs := by
    rw [exponentPart, hwhole, hfrac, drop_append_of_isPrefix hstart, exponent_append_spaced h]
    rfl
  rw [decimal_eq, decimal_eq, hwhole, hfrac, hexpo]

theorem number_append_spaced (h : Spaced rest) (cs : List Char) :
    number (cs ++ rest) = number cs := by
  have hhex : Stops isHexDigit rest :=
    h.stops (by decide) (by decide) (by decide) (by decide) (by decide) (by decide)
  have hmark : Stops isHexMarker rest :=
    h.stops (by decide) (by decide) (by decide) (by decide) (by decide) (by decide)
  rcases number_cases cs with ⟨x, tail, rfl, hx⟩ | ⟨hplain, hdecimal⟩
  · simp only [List.cons_append, number, hx, if_true, takeWhile_append_stops hhex]
  · rw [hdecimal]
    refine (number_eq_decimal fun x tail heq => ?_).trans (decimal_append_spaced h cs)
    cases cs with
    | nil => exact absurd (congrArg List.head? heq) (h.head_ne (by decide))
    | cons c cs =>
      cases cs with
      | nil => exact hmark x (congrArg List.head? (List.cons.inj heq).2)
      | cons d cs =>
        obtain ⟨rfl, htail⟩ := List.cons.inj heq
        obtain ⟨rfl, -⟩ := List.cons.inj htail
        exact hplain d cs rfl

theorem startsNumber_append_spaced (h : Spaced rest) (c : Char) (cs : List Char) :
    startsNumber c (cs ++ rest) = startsNumber c cs := by
  cases cs with
  | cons d cs => rfl
  | nil =>
    have hhead : rest.head?.any Char.isDigit = false := by
      cases hr : rest.head? with
      | none => rfl
      | some d => exact h.stops_isDigit d hr
    rw [List.nil_append, startsNumber, hhead]
    rfl

end Lexeme

/-- No operator holds a blank. -/
def OperatorTrie.Unbroken (operators : OperatorTrie) : Prop :=
  ∀ w, operators.root.has w = true → ∀ c ∈ w, CharClass.isWhitespace c = false

namespace Lexeme

open CharClass

variable {rest : List Char} {operators : OperatorTrie}

/-- Texts that start with the same words have the same longest match. -/
theorem longestMatch_of_longestMatch {t : Trie} {cs cs' w : List Char}
    (h : ∀ u, t.has u = true → (u <+: cs ↔ u <+: cs')) (hw : t.longestMatch cs = some w) :
    t.longestMatch cs' = some w := by
  obtain ⟨hhas, hpre⟩ := Trie.of_longestMatch t cs w hw
  obtain ⟨v, hv, hle⟩ := Trie.exists_longestMatch t cs' w hhas ((h w hhas).1 hpre)
  obtain ⟨hhas', hpre'⟩ := Trie.of_longestMatch t cs' v hv
  have hpre' : v <+: cs := (h v hhas').2 hpre'
  obtain ⟨u, hu, hle'⟩ := Trie.exists_longestMatch t cs v hhas' hpre'
  obtain rfl : w = u := Option.some.inj (hw.symm.trans hu)
  rw [hv, (List.prefix_of_prefix_length_le hpre hpre' hle).eq_of_length_le hle']

theorem match_append_spaced (hops : operators.Unbroken) (h : Spaced rest) (cs : List Char) :
    operators.match? (cs ++ rest) = operators.match? cs := by
  have hwords : ∀ u, operators.root.has u = true → (u <+: cs ↔ u <+: cs ++ rest) := by
    intro u hu
    exact ⟨fun hcs => hcs.trans (List.prefix_append cs rest),
      isPrefix_of_isPrefix_append (hops u hu) h⟩
  cases hm : operators.match? cs with
  | some w => exact longestMatch_of_longestMatch hwords hm
  | none =>
    cases hboth : operators.match? (cs ++ rest) with
    | none => rfl
    | some w =>
      have := longestMatch_of_longestMatch (fun u hu => (hwords u hu).symm) hboth
      exact absurd (hm.symm.trans this) (by simp)

/-- The first piece of a text does not depend on what is behind a blank. -/
theorem first_append_spaced (hops : operators.Unbroken) (h : Spaced rest) (c : Char)
    (cs : List Char) : first operators c (cs ++ rest) = first operators c cs := by
  have hpart : Stops isIdentifierPart rest :=
    h.stops (by decide) (by decide) (by decide) (by decide) (by decide) (by decide)
  have hmatch : operators.match? (c :: (cs ++ rest)) = operators.match? (c :: cs) :=
    match_append_spaced hops h (c :: cs)
  have hnumber : number (c :: (cs ++ rest)) = number (c :: cs) :=
    number_append_spaced h (c :: cs)
  simp only [first, takeWhile_append_stops hpart, hmatch, hnumber,
    startsNumber_append_spaced h]

/-! ## Both sides of a blank -/

/-- Neither do the pieces of a text. -/
theorem split_append_spaced (hops : operators.Unbroken) (h : Spaced rest) {skip : Nat}
    {cs : List Char} (hskip : skip ≤ cs.length) :
    split operators skip (cs ++ rest) = split operators skip cs ++ split operators 0 rest := by
  induction cs generalizing skip with
  | nil =>
    obtain rfl : skip = 0 := Nat.le_zero.1 hskip
    rfl
  | cons c cs ih =>
    cases skip with
    | succ skip => exact ih (Nat.le_of_succ_le_succ hskip)
    | zero =>
      have hlen := (first_isPrefix operators c cs).length_le
      rw [List.length_cons] at hlen
      rw [List.cons_append, split, split, first_append_spaced hops h, ih (by omega)]
      rfl

/-- Blanks, each a piece of its own. -/
def blanks (w : List Char) : List Lexeme := w.map fun c => ⟨[c], .blank⟩

theorem flatMap_blanks (w : List Char) : (blanks w).flatMap Lexeme.text = w := by
  induction w with
  | nil => rfl
  | cons c w ih =>
    show [c] ++ (blanks w).flatMap Lexeme.text = _
    rw [ih]
    rfl

theorem tokens_blanks (position : Nat) (w : List Char) : tokens position (blanks w) = [] := by
  induction w generalizing position with
  | nil => rfl
  | cons c w ih => exact ih _

theorem details_blanks (position : Nat) (w : List Char) : details position (blanks w) = [] := by
  induction w generalizing position with
  | nil => rfl
  | cons c w ih => exact ih _

theorem split_blanks {w : List Char} (hw : ∀ c ∈ w, isWhitespace c = true) (cs : List Char) :
    split operators 0 (w ++ cs) = blanks w ++ split operators 0 cs := by
  induction w with
  | nil => rfl
  | cons c w ih =>
    have hfirst : first operators c (w ++ cs) = ⟨[c], .blank⟩ := by
      rw [first, if_pos (hw c (List.mem_cons_self ..))]
    have hcut : split operators 0 (c :: (w ++ cs)) = ⟨[c], .blank⟩ :: split operators 0 (w ++ cs) :=
      split_cons rfl hfirst
    rw [List.cons_append, hcut, ih fun d hd => hw d (List.mem_cons_of_mem _ hd)]
    rfl

/-- The pieces of two texts with blanks between them. -/
theorem ofText_append (hops : operators.Unbroken) {cs w ds : List Char} (hne : w ≠ [])
    (hw : ∀ c ∈ w, isWhitespace c = true) :
    ofText operators (cs ++ (w ++ ds))
      = ofText operators cs ++ (blanks w ++ ofText operators ds) := by
  have hspaced : Spaced (w ++ ds) := by
    intro c hc
    cases w with
    | nil => exact absurd rfl hne
    | cons d w =>
      obtain rfl : d = c := Option.some.inj hc
      exact hw d (List.mem_cons_self ..)
  rw [ofText, split_append_spaced hops hspaced (Nat.zero_le _), split_blanks hw]
  rfl

end Lexeme

/-- The scans of two texts and of both with blanks between them. -/
theorem Scan.ofText_append {operators : OperatorTrie} (hops : operators.Unbroken)
    {s w t : String} (hne : w ≠ "") (hw : ∀ c ∈ w.toList, CharClass.isWhitespace c = true) :
    Scan.ofText operators (s ++ w ++ t)
      = ⟨(Scan.ofText operators s).tokens
          ++ (Scan.ofText operators t).tokens.map (Token.shift (s ++ w).toList.length),
        (Scan.ofText operators s).details
          ++ (Scan.ofText operators t).details.map
            (LexicalDetail.shift (s ++ w).toList.length)⟩ := by
  have hne' : w.toList ≠ [] := fun h => hne (String.toList_eq_nil_iff.1 h)
  have htext : (s ++ w ++ t).toList = s.toList ++ (w.toList ++ t.toList) := by
    rw [String.toList_append, String.toList_append, List.append_assoc]
  have hplace : 0 + s.toList.length + w.toList.length = (s ++ w).toList.length + 0 := by
    rw [String.toList_append, List.length_append]
    omega
  simp only [Scan.ofText, htext, Lexeme.ofText_append hops hne' hw, Lexeme.tokens_append,
    Lexeme.details_append, Lexeme.tokens_blanks, Lexeme.details_blanks, Lexeme.flatMap_ofText,
    Lexeme.flatMap_blanks, List.nil_append, hplace, Lexeme.tokens_shift, Lexeme.details_shift]

/-! ## Results -/

/-- The problems that a scan reports; none where it has tokens. -/
def Scanner.findings : Except Failure (List Token) → List LexicalDetail
  | .error (.error ⟨.lexical _ details, _, _, _⟩) => details
  | _ => []

theorem Scan.findings_result (s : Scan) (source : String) :
    Scanner.findings (s.result source) = s.details := by
  cases hdetails : s.details with
  | nil =>
    rw [Scan.result_eq_ok_iff.2 ⟨hdetails, rfl⟩]
    rfl
  | cons d ds =>
    rw [Scan.result_eq_error hdetails]
    rfl

/-- An operator list whose operators hold no blank. -/
def Datum.UnbrokenOperators (d : Datum) : Prop :=
  ∀ items, d.items? = some items → ∀ op, .str op ∈ items → ∀ c ∈ op.toList,
    CharClass.isWhitespace c = false

namespace Scanner

theorem unbroken_of_operators {d : Datum} {ops : List String} (hd : d.UnbrokenOperators)
    (hops : operators? d = .ok ops) : (OperatorTrie.ofList ops).Unbroken := by
  have hall : ∀ op ∈ ops, ∀ c ∈ op.toList, CharClass.isWhitespace c = false := by
    obtain ⟨given, hitems, hops⟩ := exists_of_bind_eq_ok hops
    rcases of_operatorItems hitems with ⟨rfl, rfl⟩ | ⟨items, hi, rfl⟩
    · obtain rfl : defaultOperators = ops := Except.ok.inj hops
      intro op hop c hc
      have hdefault : (defaultOperators.all fun op =>
          op.toList.all fun c => !CharClass.isWhitespace c) = true := by decide
      have := List.all_eq_true.1 (List.all_eq_true.1 hdefault op hop) c hc
      rwa [Bool.not_eq_true'] at this
    · exact fun op hop => hd items hi op (Datum.mem_of_operators hops hop)
  intro w hw c hc
  refine hall _ (OperatorTrie.has_ofList.1 hw).2 c ?_
  rwa [String.toList_ofList]

/-- Scanning two texts with blanks between them. Operators that are refused are refused with any
text; otherwise there are tokens when both texts have tokens, the second ones further on, and else
the problems of the first text and then, further on, those of the second. -/
theorem tokens_append_blank {d : Datum} (hd : d.UnbrokenOperators) {limits : Limits}
    {s w t : String} (hne : w ≠ "") (hw : ∀ c ∈ w.toList, CharClass.isWhitespace c = true)
    (hshort : ((s ++ w ++ t).toList.length : Int) ≤ limits.expressionLength) :
    (∃ f, operators? d = .error f ∧ ∀ text, tokensOf d limits text = .error (.fault f))
      ∨ ((∃ ts, tokensOf d limits (s ++ w ++ t) = .ok ts)
          ↔ (∃ ts, tokensOf d limits s = .ok ts) ∧ ∃ us, tokensOf d limits t = .ok us)
        ∧ (∀ ts us, tokensOf d limits s = .ok ts → tokensOf d limits t = .ok us →
            tokensOf d limits (s ++ w ++ t)
              = .ok (ts ++ us.map (Token.shift (s ++ w).toList.length)))
        ∧ ((∀ ts, tokensOf d limits (s ++ w ++ t) ≠ .ok ts) →
            ∃ first others, tokensOf d limits (s ++ w ++ t)
                = .error (.error (Error.ofDetails first others (some (s ++ w ++ t))))
              ∧ first :: others = findings (tokensOf d limits s)
                ++ (findings (tokensOf d limits t)).map
                  (LexicalDetail.shift (s ++ w).toList.length)) := by
  cases hops : operators? d with
  | error f => exact Or.inl ⟨f, rfl, tokensOf_eq_error hops limits⟩
  | ok ops =>
    right
    have hlength : ((s ++ w ++ t).toList.length : Int)
        = s.toList.length + w.toList.length + t.toList.length := by
      simp only [String.toList_append, List.length_append]
      omega
    have hs : tokensOf d limits s = (Scan.ofText (.ofList ops) s).result s := by
      rw [tokensOf_eq hops, Token.ofText_of_short (by omega)]
    have ht : tokensOf d limits t = (Scan.ofText (.ofList ops) t).result t := by
      rw [tokensOf_eq hops, Token.ofText_of_short (by omega)]
    have hboth := Scan.ofText_append (s := s) (t := t) (unbroken_of_operators hd hops) hne hw
    rw [tokensOf_eq hops, Token.ofText_of_short hshort, hs, ht, hboth]
    generalize Scan.ofText (.ofList ops) s = a
    generalize Scan.ofText (.ofList ops) t = b
    rw [Scan.findings_result, Scan.findings_result]
    refine ⟨?_, ?_, ?_⟩
    · simp only [Scan.result_eq_ok_iff, List.append_eq_nil_iff, List.map_eq_nil_iff]
      simp
    · intro ts us ha hb
      obtain ⟨hda, rfl⟩ := Scan.result_eq_ok_iff.1 ha
      obtain ⟨hdb, rfl⟩ := Scan.result_eq_ok_iff.1 hb
      exact Scan.result_eq_ok_iff.2 ⟨by rw [hda, hdb]; rfl, rfl⟩
    · intro hnot
      cases hdetails : a.details
          ++ b.details.map (LexicalDetail.shift (s ++ w).toList.length) with
      | nil => exact absurd (Scan.result_eq_ok_iff.2 ⟨hdetails, rfl⟩) (hnot _)
      | cons first others => exact ⟨first, others, Scan.result_eq_error rfl _, rfl⟩

theorem tokens_append_blank_malformed : ∃ first others,
    tokensOf (.list [.str "**"]) {} ("0x" ++ " \t" ++ "2**1e")
        = .error (.error (Error.ofDetails first others (some ("0x" ++ " \t" ++ "2**1e"))))
      ∧ first :: others = [⟨.missingHexDigits, 2⟩, ⟨.missingExponentDigits, 9⟩] := by
  have hd : (Datum.list [.str "**"]).UnbrokenOperators := by
    intro items hitems op hop c hc
    obtain rfl := Option.some.inj hitems
    obtain rfl : op = "**" := by simpa using hop
    obtain rfl : c = '*' := by simpa using hc
    decide
  have hw : ∀ c ∈ " \t".toList, CharClass.isWhitespace c = true := by simp [CharClass.isWhitespace]
  obtain ⟨f, hf, -⟩ | ⟨hiff, -, hfindings⟩ :=
    @tokens_append_blank _ hd {} "0x" " \t" "2**1e" (by decide) hw (by decide)
  · have hops : operators? (.list [.str "**"]) = .ok ["**"] := rfl
    exact absurd (hops.symm.trans hf) (by simp)
  · have hnot : ∀ ts, tokensOf (.list [.str "**"]) {} ("0x" ++ " \t" ++ "2**1e") ≠ .ok ts := by
      intro ts hts
      obtain ⟨⟨us, hus⟩, -⟩ := hiff.1 ⟨ts, hts⟩
      have : tokensOf (.list [.str "**"]) {} "0x" = .error _ := rfl
      rw [this] at hus
      exact absurd hus (by simp)
    obtain ⟨first, others, herror, hdetails⟩ := hfindings hnot
    refine ⟨first, others, herror, hdetails.trans ?_⟩
    rfl
end Scanner

end Reckon
