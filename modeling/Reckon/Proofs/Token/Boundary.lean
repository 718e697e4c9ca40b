import Reckon.Token.Lexeme
/-
  Tokens in another place. A token takes as much of a text as its rule allows, so what it is may
  depend on what follows it. It does not where a blank, a parenthesis or a comma follows, or the
  end: a token of one text is the same token in any other text that has a boundary behind it
  (`Lexes.split`). Only operators could reach over a boundary, so none of them may hold one
  (`OperatorTrie.Plain`).
-/
namespace Reckon

namespace Lexeme

open CharClass

/-- A character that no token goes over. -/
def isBoundary (c : Char) : Bool := c == ' ' || isParenthesis c || c == ','

/-- A text that starts with a boundary, or is at its end. -/
def Bounded (rest : List Char) : Prop := ∀ c, rest.head? = some c → isBoundary c = true

/-- A text that does not go on with a character of a class. -/
def Stops (p : Char → Bool) (rest : List Char) : Prop := ∀ c, rest.head? = some c → p c = false

theorem isBoundary_eq_false_of_all {cs : List Char} (h : (cs.all fun c => !isBoundary c) = true) :
    ∀ c ∈ cs, isBoundary c = false := by
  intro c hc
  have hnot := List.all_eq_true.1 h c hc
  rwa [Bool.not_eq_true'] at hnot

theorem eq_of_isBoundary {c : Char} (h : isBoundary c = true) :
    c = ' ' ∨ c = '(' ∨ c = ')' ∨ c = ',' := by
  unfold isBoundary isParenthesis at h
  simp only [Bool.or_eq_true, beq_iff_eq] at h
  rcases h with (h | h | h) | h
  · exact Or.inl h
  · exact Or.inr (Or.inl h)
  · exact Or.inr (Or.inr (Or.inl h))
  · exact Or.inr (Or.inr (Or.inr h))

/-- A class without boundaries stops at them. -/
theorem Bounded.stops {rest : List Char} (h : Bounded rest) {p : Char → Bool}
    (hspace : p ' ' = false) (hopen : p '(' = false) (hclose : p ')' = false)
    (hcomma : p ',' = false) : Stops p rest := by
  intro c hc
  obtain rfl | rfl | rfl | rfl := eq_of_isBoundary (h c hc)
  · exact hspace
  · exact hopen
  · exact hclose
  · exact hcomma

theorem Bounded.stops_isDigit {rest : List Char} (h : Bounded rest) : Stops Char.isDigit rest :=
  h.stops (by decide) (by decide) (by decide) (by decide)

theorem bounded_nil : Bounded [] := by
  intro c hc
  cases hc

theorem bounded_cons {c : Char} {cs : List Char} (h : isBoundary c = true) : Bounded (c :: cs) := by
  intro d hd
  rw [List.head?_cons] at hd
  rw [← Option.some.inj hd]
  exact h

/-- What comes before a stop is taken and nothing else. -/
theorem takeWhile_append_of_stops {p : Char → Bool} {rest : List Char} (h : Stops p rest)
    (cs : List Char) : (cs.takeWhile p ++ rest).takeWhile p = cs.takeWhile p := by
  rw [List.takeWhile_append_of_pos fun c hc => List.all_eq_true.1 List.all_takeWhile c hc]
  cases rest with
  | nil => rw [List.takeWhile_nil, List.append_nil]
  | cons c cs =>
    have hc : p c = false := h c rfl
    rw [List.takeWhile_cons_of_neg (by rw [hc]; decide), List.append_nil]

/-! ## Numbers -/

theorem fraction_eq_nil {cs : List Char} (h : cs.head? ≠ some '.') : fraction cs = ([], false) := by
  unfold fraction
  split
  · exact absurd rfl h
  · rfl

theorem fraction_append {rest : List Char} (hd : Stops Char.isDigit rest)
    (hp : rest.head? ≠ some '.') (cs : List Char) :
    fraction ((fraction cs).1 ++ rest) = fraction cs := by
  by_cases h : cs.head? = some '.'
  · cases cs with
    | nil => exact absurd h (by simp)
    | cons c cs =>
      obtain rfl : c = '.' := Option.some.inj h
      show ('.' :: (cs.takeWhile Char.isDigit ++ rest).takeWhile Char.isDigit,
        ((cs.takeWhile Char.isDigit ++ rest).takeWhile Char.isDigit).isEmpty) = _
      rw [takeWhile_append_of_stops hd]
      rfl
  · rw [fraction_eq_nil h, List.nil_append, fraction_eq_nil hp]

/-- A fraction is nothing or starts with its point. -/
theorem stops_fraction (cs rest : List Char) (h : Stops Char.isDigit rest) :
    Stops Char.isDigit ((fraction cs).1 ++ rest) := by
  unfold fraction
  split
  · intro c hc
    obtain rfl : '.' = c := Option.some.inj hc
    decide
  · exact h

theorem exponent_of_stops {cs : List Char} (h : Stops isExponentMarker cs) :
    exponent cs = ([], false) := by
  cases cs with
  | nil => rfl
  | cons c cs =>
    have hc : isExponentMarker c = false := h c rfl
    simp only [exponent, hc, Bool.false_eq_true, if_false]

theorem sign_of_stops {cs : List Char} (h : Stops isSign cs) : sign cs = [] := by
  cases cs with
  | nil => rfl
  | cons c cs =>
    have hc : isSign c = false := h c rfl
    simp only [sign, hc, Bool.false_eq_true, if_false]

theorem isSign_eq_false_of_isDigit {c : Char} (h : c.isDigit = true) : isSign c = false := by
  cases hs : isSign c with
  | false => rfl
  | true =>
    unfold isSign at hs
    simp only [Bool.or_eq_true, beq_iff_eq] at hs
    rcases hs with rfl | rfl
    · exact absurd h (by decide)
    · exact absurd h (by decide)

/-- The sign of an exponent, with digits behind it that are no sign themselves. -/
theorem sign_append {ds rest : List Char} (cs : List Char) (hds : ∀ c ∈ ds, c.isDigit = true)
    (h : Stops isSign rest) : sign (sign cs ++ (ds ++ rest)) = sign cs := by
  have hnil : sign (ds ++ rest) = [] := by
    cases ds with
    | nil => exact sign_of_stops h
    | cons d ds =>
      have hd := isSign_eq_false_of_isDigit (hds d (List.mem_cons_self ..))
      refine sign_of_stops fun c hc => ?_
      obtain rfl : d = c := Option.some.inj hc
      exact hd
  cases cs with
  | nil => exact hnil
  | cons c cs =>
    by_cases hc : isSign c = true
    · simp only [sign, hc, if_true, List.cons_append]
    · simp only [sign, hc, Bool.false_eq_true, if_false, List.nil_append]
      exact hnil

theorem exponent_append {rest : List Char} (h : Bounded rest) (cs : List Char) :
    exponent ((exponent cs).1 ++ rest) = exponent cs := by
  have hm : Stops isExponentMarker rest := h.stops (by decide) (by decide) (by decide) (by decide)
  have hs : Stops isSign rest := h.stops (by decide) (by decide) (by decide) (by decide)
  cases cs with
  | nil => exact exponent_of_stops hm
  | cons c cs =>
    by_cases hc : isExponentMarker c = true
    · have hds : ∀ x ∈ (cs.drop (sign cs).length).takeWhile Char.isDigit, x.isDigit = true :=
        fun x hx => List.all_eq_true.1 List.all_takeWhile x hx
      have hsign : sign (sign cs ++ ((cs.drop (sign cs).length).takeWhile Char.isDigit ++ rest))
          = sign cs := sign_append cs hds hs
      simp only [exponent, hc, if_true, List.cons_append, List.append_assoc, hsign,
        List.drop_left, takeWhile_append_of_stops h.stops_isDigit]
    · simp only [exponent, hc, Bool.false_eq_true, if_false, List.nil_append]
      exact exponent_of_stops hm

/-- An exponent is nothing or starts with its mark. -/
theorem stops_exponent {p : Char → Bool} (cs rest : List Char) (h : Stops p rest)
    (hp : ∀ c, isExponentMarker c = true → p c = false) : Stops p ((exponent cs).1 ++ rest) := by
  cases cs with
  | nil => exact h
  | cons c cs =>
    by_cases hc : isExponentMarker c = true
    · intro d hd
      simp only [exponent, hc, if_true, List.cons_append, List.head?_cons] at hd
      rw [← Option.some.inj hd]
      exact hp c hc
    · simp only [exponent, hc, Bool.false_eq_true, if_false, List.nil_append]
      exact h

theorem of_isExponentMarker {c : Char} (h : isExponentMarker c = true) : c = 'e' ∨ c = 'E' := by
  unfold isExponentMarker at h
  simpa using h

/-- The whole part of the decimal literal at the start of a text. -/
def wholePart (cs : List Char) : List Char := cs.takeWhile Char.isDigit

theorem wholePart_isPrefix (cs : List Char) : wholePart cs <+: cs := List.takeWhile_prefix _

/-- Its fraction. -/
def fractionPart (cs : List Char) : List Char × Bool := fraction (cs.drop (wholePart cs).length)

/-- Its exponent. -/
def exponentPart (cs : List Char) : List Char × Bool :=
  exponent (cs.drop (wholePart cs ++ (fractionPart cs).1).length)

/-- The parts one after the other, and what is missing of them. -/
theorem decimal_eq (cs : List Char) :
    decimal cs = ofNumber (wholePart cs ++ (fractionPart cs).1 ++ (exponentPart cs).1)
      ((if (fractionPart cs).2 then
          [(.missingFractionDigits, (wholePart cs ++ (fractionPart cs).1).length)] else [])
        ++ (if (exponentPart cs).2 then
          [(.missingExponentDigits,
            (wholePart cs ++ (fractionPart cs).1 ++ (exponentPart cs).1).length)] else [])) := rfl

theorem decimal_append {rest : List Char} (h : Bounded rest) (cs : List Char) :
    decimal ((decimal cs).text ++ rest) = decimal cs := by
  have hpoint : Stops (· == '.') rest := h.stops (by decide) (by decide) (by decide) (by decide)
  let whole := cs.takeWhile Char.isDigit
  let frac := fraction (cs.drop whole.length)
  let expo := exponent (cs.drop (whole ++ frac.1).length)
  have hdigit : Stops Char.isDigit (expo.1 ++ rest) := by
    refine stops_exponent _ _ h.stops_isDigit fun c hc => ?_
    rcases of_isExponentMarker hc with rfl | rfl
    · decide
    · decide
  have hdot : (expo.1 ++ rest).head? ≠ some '.' := by
    have hstop : Stops (· == '.') (expo.1 ++ rest) := by
      refine stops_exponent _ _ hpoint fun c hc => ?_
      rcases of_isExponentMarker hc with rfl | rfl
      · decide
      · decide
    intro heq
    exact absurd (hstop '.' heq) (by decide)
  have htext : (decimal cs).text ++ rest = whole ++ (frac.1 ++ (expo.1 ++ rest)) := by
    show whole ++ frac.1 ++ expo.1 ++ rest = _
    rw [List.append_assoc, List.append_assoc]
  have hwhole : (whole ++ (frac.1 ++ (expo.1 ++ rest))).takeWhile Char.isDigit = whole :=
    takeWhile_append_of_stops (stops_fraction _ _ hdigit) cs
  have hfrac : fraction (frac.1 ++ (expo.1 ++ rest)) = frac := fraction_append hdigit hdot _
  have hexpo : exponent (expo.1 ++ rest) = expo := exponent_append h _
  have hdrop : (whole ++ (frac.1 ++ (expo.1 ++ rest))).drop (whole ++ frac.1).length
      = expo.1 ++ rest := by
    rw [← List.append_assoc, List.drop_left]
  rw [htext]
  unfold decimal
  simp only [hwhole, List.drop_left, hfrac, hdrop, hexpo]
  rfl

theorem number_eq_decimal {cs : List Char}
    (h : ∀ c tail, cs = '0' :: c :: tail → isHexMarker c = false) : number cs = decimal cs := by
  unfold number
  split
  · rename_i c cs
    rw [h c cs rfl]
    rfl
  · rfl

/-- A number is hexadecimal behind its mark, and decimal otherwise. -/
theorem number_cases (cs : List Char) :
    (∃ x tail, cs = '0' :: x :: tail ∧ isHexMarker x = true)
      ∨ (∀ x tail, cs = '0' :: x :: tail → isHexMarker x = false) ∧ number cs = decimal cs := by
  by_cases hhex : ∃ x tail, cs = '0' :: x :: tail ∧ isHexMarker x = true
  · exact Or.inl hhex
  · have hplain : ∀ x tail, cs = '0' :: x :: tail → isHexMarker x = false := by
      intro x tail heq
      cases hx : isHexMarker x with
      | false => rfl
      | true => exact absurd ⟨x, tail, heq, hx⟩ hhex
    exact Or.inr ⟨hplain, number_eq_decimal hplain⟩

theorem number_append {rest : List Char} (h : Bounded rest) (cs : List Char) :
    number ((number cs).text ++ rest) = number cs := by
  have hhex : Stops isHexDigit rest := h.stops (by decide) (by decide) (by decide) (by decide)
  rcases number_cases cs with ⟨c, tail, rfl, hc⟩ | ⟨hplain, hdec⟩
  · simp only [number, hc, if_true, ofNumber_text, List.cons_append,
      takeWhile_append_of_stops hhex]
  · have hmarker : Stops isHexMarker rest :=
      h.stops (by decide) (by decide) (by decide) (by decide)
    have hzero : Stops (· == '0') rest := h.stops (by decide) (by decide) (by decide) (by decide)
    rw [hdec]
    refine (number_eq_decimal fun c tail heq => ?_).trans (decimal_append h cs)
    obtain ⟨r, hr⟩ := decimal_isPrefix cs
    cases ht : (decimal cs).text with
    | nil =>
      rw [ht, List.nil_append] at heq
      exact absurd (hzero '0' (by rw [heq]; rfl)) (by decide)
    | cons x xs =>
      rw [ht, List.cons_append] at heq
      obtain ⟨rfl, htail⟩ := List.cons.inj heq
      cases xs with
      | nil =>
        rw [List.nil_append] at htail
        exact hmarker c (by rw [htail]; rfl)
      | cons y ys =>
        obtain ⟨rfl, -⟩ := List.cons.inj htail
        rw [ht] at hr
        exact hplain y (ys ++ r) hr.symm

end Lexeme

/-! ## Pieces -/

/-- No operator holds a boundary. -/
def OperatorTrie.Plain (operators : OperatorTrie) : Prop :=
  ∀ w, operators.root.has w = true → ∀ c ∈ w, Lexeme.isBoundary c = false

namespace Lexeme

open CharClass

variable {operators : OperatorTrie}

/-- A word does not reach into what is behind a character that it does not hold. -/
theorem isPrefix_of_isPrefix_append {p : Char → Bool} {w u rest : List Char}
    (hu : ∀ c ∈ u, p c = false) (h : ∀ c, rest.head? = some c → p c = true)
    (hpre : u <+: w ++ rest) : u <+: w := by
  rcases List.prefix_or_prefix_of_prefix hpre (List.prefix_append w rest) with hw | ⟨v, rfl⟩
  · exact hw
  · cases v with
    | nil =>
      exact ⟨[], by rw [List.append_nil, List.append_nil]⟩
    | cons d v =>
      obtain ⟨r, rfl⟩ := (List.prefix_append_right_inj w).1 hpre
      have hd : p d = true := h d rfl
      rw [hu d (List.mem_append_right _ (List.mem_cons_self ..))] at hd
      exact absurd hd (by decide)

/-- A match does not reach into what is behind a boundary. -/
theorem isPrefix_of_match {w u rest : List Char} (hops : operators.Plain) (h : Bounded rest)
    (hu : operators.match? (w ++ rest) = some u) : u <+: w := by
  obtain ⟨hhas, hpre⟩ := Trie.of_longestMatch _ _ _ hu
  exact isPrefix_of_isPrefix_append (hops u hhas) h hpre

theorem match_append {w cs rest : List Char} (hops : operators.Plain) (h : Bounded rest)
    (hw : operators.match? cs = some w) : operators.match? (w ++ rest) = some w := by
  obtain ⟨hhas, -⟩ := Trie.of_longestMatch _ _ _ hw
  obtain ⟨u, hu, hlen⟩ := Trie.exists_longestMatch operators.root (w ++ rest) w hhas
    (List.prefix_append w rest)
  have hpre : u <+: w := isPrefix_of_match hops h hu
  rw [show operators.match? (w ++ rest) = some u from hu, hpre.eq_of_length_le hlen]

theorem match_append_eq_none {w cs rest : List Char} (hops : operators.Plain) (h : Bounded rest)
    (hw : w <+: cs) (hcs : operators.match? cs = none) : operators.match? (w ++ rest) = none := by
  cases hm : operators.match? (w ++ rest) with
  | none => rfl
  | some u =>
    obtain ⟨hhas, -⟩ := Trie.of_longestMatch _ _ _ hm
    obtain ⟨v, hv, -⟩ := Trie.exists_longestMatch operators.root cs u hhas
      ((isPrefix_of_match hops h hm).trans hw)
    rw [show operators.match? cs = some v from hv] at hcs
    exact absurd hcs (by simp)

/-- A number that starts with a point has a digit behind it. -/
theorem startsNumber_append {c : Char} {w cs : List Char} (rest : List Char)
    (h : startsNumber c cs = true) (hw : (number (c :: cs)).text = c :: w) :
    startsNumber c (w ++ rest) = true := by
  unfold startsNumber at h ⊢
  by_cases hdigit : c.isDigit = true
  · rw [hdigit]
    rfl
  · simp only [hdigit, Bool.false_or, Bool.and_eq_true, beq_iff_eq] at h ⊢
    obtain ⟨rfl, h⟩ := h
    refine ⟨rfl, ?_⟩
    cases cs with
    | nil => exact absurd h (by decide)
    | cons d ds =>
      have hd : d.isDigit = true := h
      have hpoint : ('.' : Char).isDigit = false := by decide
      have hnumber : number ('.' :: d :: ds) = decimal ('.' :: d :: ds) :=
        number_eq_decimal fun _ _ heq => absurd (List.cons.inj heq).1 (by decide)
      rw [hnumber] at hw
      simp only [decimal, ofNumber_text, List.takeWhile_cons, hpoint, hd, fraction, if_true,
        Bool.false_eq_true, if_false, List.length_nil, List.drop_zero, List.nil_append,
        List.cons_append, List.cons.injEq, true_and] at hw
      rw [← hw]
      exact hd

/-- A token is the same in front of any boundary. -/
theorem first_append {c : Char} {w cs rest : List Char} {kind : Token.Kind}
    (hops : operators.Plain) (h : Bounded rest)
    (hfirst : first operators c cs = ⟨c :: w, .token kind⟩) :
    first operators c (w ++ rest) = ⟨c :: w, .token kind⟩ := by
  have hpart : Stops isIdentifierPart rest :=
    h.stops (by decide) (by decide) (by decide) (by decide)
  by_cases hblank : isWhitespace c = true
  · simp [first, hblank] at hfirst
  by_cases hparen : isParenthesis c = true
  · simp only [first, hblank, hparen, if_true, Bool.false_eq_true, if_false] at hfirst ⊢
    exact hfirst
  by_cases hstart : isIdentifierStart c = true
  · simp only [first, hblank, hparen, hstart, if_true, Bool.false_eq_true, if_false] at hfirst ⊢
    have hw : cs.takeWhile isIdentifierPart = w := by
      have := congrArg Lexeme.text hfirst
      exact (List.cons.inj this).2
    rw [← hfirst, ← hw, takeWhile_append_of_stops hpart]
  by_cases hcomma : (c == ',') = true
  · simp only [first, hblank, hparen, hstart, hcomma, if_true, Bool.false_eq_true, if_false]
      at hfirst ⊢
    exact hfirst
  simp only [first, hblank, hparen, hstart, hcomma, Bool.false_eq_true, if_false] at hfirst ⊢
  cases hm : operators.match? (c :: cs) with
  | some u =>
    rw [hm] at hfirst
    obtain rfl : u = c :: w := congrArg Lexeme.text hfirst
    have hnew : operators.match? (c :: (w ++ rest)) = some (c :: w) := match_append hops h hm
    rw [hnew]
    exact hfirst
  | none =>
    rw [hm] at hfirst
    by_cases hnumber : startsNumber c cs = true
    · simp only [hnumber, if_true] at hfirst
      have htext : (number (c :: cs)).text = c :: w := congrArg Lexeme.text hfirst
      have hpre : c :: w <+: c :: cs := by
        rw [← htext]
        exact number_isPrefix _
      have hnone : operators.match? (c :: (w ++ rest)) = none :=
        match_append_eq_none (w := c :: w) hops h hpre hm
      have hnew : number (c :: (w ++ rest)) = ⟨c :: w, .token kind⟩ := by
        have := number_append h (c :: cs)
        rw [htext, hfirst] at this
        exact this
      have hstill : startsNumber c (w ++ rest) = true := startsNumber_append rest hnumber htext
      rw [hnone]
      simp only [hstill, if_true]
      exact hnew
    · simp [hnumber] at hfirst

/-- Characters that belong to a piece before are passed over. -/
theorem split_drop (skip : Nat) (cs : List Char) :
    split operators skip cs = split operators 0 (cs.drop skip) := by
  induction cs generalizing skip with
  | nil => rw [List.drop_nil, split, split]
  | cons c cs ih =>
    cases skip with
    | zero => rfl
    | succ skip => rw [split, List.drop_succ_cons, ih]

/-- A piece is cut off, and the rest is cut by itself. -/
theorem split_cons {c : Char} {cs w rest : List Char} {role : Role} (hcs : cs = w ++ rest)
    (h : first operators c cs = ⟨c :: w, role⟩) :
    split operators 0 (c :: cs) = ⟨c :: w, role⟩ :: split operators 0 rest := by
  rw [split]
  simp only [h, List.length_cons, Nat.add_sub_cancel]
  rw [split_drop, hcs, List.drop_left]

theorem split_space (rest : List Char) :
    split operators 0 (' ' :: rest) = ⟨[' '], .blank⟩ :: split operators 0 rest :=
  split_cons rfl rfl

theorem split_opening (rest : List Char) :
    split operators 0 ('(' :: rest) = ⟨['('], .token .parenthesis⟩ :: split operators 0 rest :=
  split_cons rfl rfl

theorem split_closing (rest : List Char) :
    split operators 0 (')' :: rest) = ⟨[')'], .token .parenthesis⟩ :: split operators 0 rest :=
  split_cons rfl rfl

theorem split_comma (rest : List Char) :
    split operators 0 (',' :: rest) = ⟨[','], .token .comma⟩ :: split operators 0 rest :=
  split_cons rfl rfl

/-- A word that is a token of some text. -/
def Lexes (operators : OperatorTrie) (kind : Token.Kind) (text : List Char) : Prop :=
  ∃ c w cs, text = c :: w ∧ first operators c cs = ⟨c :: w, .token kind⟩

/-- In front of a boundary it is a token again. -/
theorem Lexes.split {kind : Token.Kind} {text rest : List Char}
    (h : Lexes operators kind text) (hops : operators.Plain) (hrest : Bounded rest) :
    Lexeme.split operators 0 (text ++ rest)
      = ⟨text, .token kind⟩ :: Lexeme.split operators 0 rest := by
  obtain ⟨c, w, cs, rfl, hfirst⟩ := h
  exact split_cons rfl (first_append hops hrest hfirst)

/-- All tokens of a text are words that are tokens. -/
theorem lexes_of_mem_tokens {skip position : Nat} {cs : List Char} {t : Token}
    (h : t ∈ tokens position (split operators skip cs)) :
    Lexes operators t.kind t.text.toList := by
  induction cs generalizing skip position with
  | nil =>
    rw [split] at h
    exact absurd h List.not_mem_nil
  | cons c cs ih =>
    cases skip with
    | succ skip =>
      rw [split] at h
      exact ih h
    | zero =>
      rw [split] at h
      obtain ⟨r, hr⟩ := first_isPrefix operators c cs
      have hne := first_text_ne_nil operators c cs
      cases hfirst : first operators c cs with
      | mk text role =>
        rw [hfirst] at h hr hne
        unfold tokens at h
        cases role with
        | blank => exact ih h
        | malformed problems => exact ih h
        | token kind =>
          rcases List.mem_cons.1 h with rfl | h
          · cases text with
            | nil => exact absurd rfl hne
            | cons d w =>
              obtain ⟨rfl, -⟩ := List.cons.inj hr
              exact ⟨d, w, cs, String.toList_ofList, hfirst⟩
          · exact ih h

end Lexeme

end Reckon
