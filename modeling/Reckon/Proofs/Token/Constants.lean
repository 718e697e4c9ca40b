import Mathlib.Data.List.TakeWhile
import Reckon.Proofs.Token.Matching
/-
  Texts that are one literal. The number at the start of a literal is the whole literal, with
  nothing missing of it (`Lexeme.number_of_isLiteral`): its digits stop at the point or at the
  exponent mark, and the fraction stops at the mark. So a text that is a literal is a single token,
  unless an operator stands at its start (`Scanner.tokensOf_of_isLiteral`).
-/
namespace Reckon

/-! ## Digits -/

namespace CharClass

/-- A property that can be decided holds of all characters of a list if a check of each says so. -/
theorem forall_mem_of_all {P : Char → Prop} [DecidablePred P] {cs : List Char}
    (h : (cs.all fun c => decide (P c)) = true) : ∀ c ∈ cs, P c :=
  fun c hc => of_decide_eq_true (List.all_eq_true.1 h c hc)

theorem mem_of_between (low count : Nat) {cs : List Char}
    (hcs : (List.range' low count).map Char.ofNat = cs) {c : Char} (hlow : low ≤ c.toNat)
    (hhigh : c.toNat < low + count) : c ∈ cs := by
  rw [← hcs]
  exact List.mem_map.2 ⟨c.toNat, List.mem_range'_1.2 ⟨hlow, hhigh⟩, Char.ofNat_toNat c⟩

theorem mem_digits {c : Char} (h : c.isDigit = true) : c ∈ "0123456789".toList := by
  simp only [Char.isDigit, Bool.and_eq_true, decide_eq_true_eq] at h
  have hlow : 48 ≤ c.toNat := h.1
  have hhigh : c.toNat ≤ 57 := h.2
  exact mem_of_between 48 10 (by decide) hlow (by omega)

theorem mem_hexDigits {c : Char} (h : isHexDigit c = true) :
    c ∈ "0123456789abcdefABCDEF".toList := by
  have hletters : c.isDigit = true ∨ c ∈ "abcdef".toList ∨ c ∈ "ABCDEF".toList := by
    simp only [isHexDigit, Bool.or_eq_true, Bool.and_eq_true, decide_eq_true_eq] at h
    rcases h with (h | ⟨hlow, hhigh⟩) | ⟨hlow, hhigh⟩
    · exact Or.inl h
    · have hlow : 97 ≤ c.toNat := hlow
      have hhigh : c.toNat ≤ 102 := hhigh
      exact Or.inr (Or.inl (mem_of_between 97 6 (by decide) hlow (by omega)))
    · have hlow : 65 ≤ c.toNat := hlow
      have hhigh : c.toNat ≤ 70 := hhigh
      exact Or.inr (Or.inr (mem_of_between 65 6 (by decide) hlow (by omega)))
  rcases hletters with h | h | h
  · exact List.mem_append_left "abcdefABCDEF".toList (mem_digits h)
  · exact List.mem_append_left "ABCDEF".toList (List.mem_append_right "0123456789".toList h)
  · exact List.mem_append_right "0123456789abcdef".toList h

end CharClass

namespace Lexeme

open CharClass

/-! ## The parts of a literal -/

/-- Characters of a class are all that is taken in front of a stop. -/
theorem takeWhile_append_of_forall {p : Char → Bool} {u v : List Char} (hu : ∀ c ∈ u, p c = true)
    (hv : Stops p v) : (u ++ v).takeWhile p = u := by
  have htake := takeWhile_append_of_stops hv u
  rwa [List.takeWhile_eq_self_iff.2 hu] at htake

theorem Digits.isEmpty {p : Char → Bool} {ds : List Char} (h : Digits p ds) :
    ds.isEmpty = false := by
  rw [List.isEmpty_eq_false_iff]
  exact h.1

theorem Digits.takeWhile {p : Char → Bool} {ds : List Char} (h : Digits p ds) :
    ds.takeWhile p = ds := List.takeWhile_eq_self_iff.2 h.2

theorem IsFraction.fraction_append {f rest : List Char} (hf : IsFraction f)
    (hdigit : Stops Char.isDigit rest) (hpoint : Stops (· == '.') rest) :
    fraction (f ++ rest) = (f, false) := by
  cases hf with
  | none =>
    refine fraction_eq_nil fun hc => ?_
    exact absurd (hpoint '.' hc) (by decide)
  | @point ds hds =>
    rw [List.cons_append, fraction, takeWhile_append_of_forall hds.2 hdigit, hds.isEmpty]

theorem IsExponent.exponent_eq {x : List Char} (hx : IsExponent x) : exponent x = (x, false) := by
  cases hx with
  | none => rfl
  | @unsigned e ds he hds =>
    have hsign : sign ds = [] :=
      sign_of_stops fun c hc => isSign_eq_false_of_isDigit (hds.2 c (List.mem_of_head? hc))
    simp only [exponent, he, if_true, hsign, List.length_nil, List.drop_zero, List.nil_append,
      hds.takeWhile, hds.isEmpty]
  | @signed e s ds he hs hds =>
    simp only [exponent, he, if_true, sign, hs, List.length_cons, List.length_nil,
      List.drop_succ_cons, List.drop_zero, List.cons_append, List.nil_append, hds.takeWhile,
      hds.isEmpty]

variable {whole frac expo : List Char}

theorem decimal_of_parts (hwhole : ∀ c ∈ whole, c.isDigit = true) (hf : IsFraction frac)
    (hx : IsExponent expo) :
    decimal (whole ++ (frac ++ expo)) = ⟨whole ++ (frac ++ expo), .token .constant⟩ := by
  have hstops := hf.stops_append hx (by decide) fun _ => isDigit_of_isExponentMarker
  have hwholePart : wholePart (whole ++ (frac ++ expo)) = whole :=
    takeWhile_append_of_forall hwhole hstops
  have hfraction : fractionPart (whole ++ (frac ++ expo)) = (frac, false) := by
    rw [fractionPart, hwholePart, List.drop_left]
    exact hf.fraction_append (hx.stops fun _ => isDigit_of_isExponentMarker)
      (hx.stops fun _ => isPoint_of_isExponentMarker)
  have hexponent : exponentPart (whole ++ (frac ++ expo)) = (expo, false) := by
    rw [exponentPart, hwholePart, hfraction, ← List.append_assoc, List.drop_left]
    exact hx.exponent_eq
  rw [decimal_eq, hwholePart, hfraction, hexponent, List.append_assoc]
  rfl

/-- Behind the zero of a decimal literal there is no hexadecimal mark. -/
theorem ne_hexadecimal (hwhole : ∀ c ∈ whole, c.isDigit = true) (hf : IsFraction frac)
    (hx : IsExponent expo) (hne : whole ++ frac ≠ []) {x : Char} {tail : List Char}
    (hmark : isHexMarker x = true) : whole ++ (frac ++ expo) ≠ '0' :: x :: tail := by
  intro heq
  have hpre : whole ++ (frac ++ expo) <+: '0' :: x :: tail :=
    ⟨[], by rw [List.append_nil, heq]⟩
  have hshort := length_le_one_of_isHexMarker hwhole hf hx hne hmark hpre
  rw [heq] at hshort
  exact absurd hshort (by simp)

/-- The number at the start of a literal is the literal. -/
theorem number_of_isLiteral {cs : List Char} (h : IsLiteral cs) :
    number cs = ⟨cs, .token .constant⟩ := by
  cases h with
  | @hexadecimal x ds hx hds =>
    simp only [number, hx, if_true, hds.takeWhile, hds.isEmpty, Bool.false_eq_true, if_false]
    rfl
  | decimal hwhole hf hexpo hne =>
    rcases number_cases _ with ⟨x, tail, heq, hx⟩ | ⟨-, hdecimal⟩
    · exact absurd heq (ne_hexadecimal hwhole hf hexpo hne hx)
    · rw [hdecimal]
      exact decimal_of_parts hwhole hf hexpo

/-! ## Texts -/

theorem IsLiteral.startsNumber {c : Char} {cs : List Char} (h : IsLiteral (c :: cs)) :
    startsNumber c cs = true := by
  generalize heq : c :: cs = text at h
  cases h with
  | hexadecimal =>
    obtain ⟨rfl, -⟩ := List.cons.inj heq
    rfl
  | @decimal whole frac expo hwhole hf hexpo hne =>
    cases whole with
    | cons d whole =>
      obtain ⟨rfl, -⟩ := List.cons.inj heq
      rw [Lexeme.startsNumber, hwhole c (List.mem_cons_self ..), Bool.true_or]
    | nil =>
      cases hf with
      | none => exact absurd rfl hne
      | @point ds hds =>
        obtain ⟨rfl, rfl⟩ := List.cons.inj heq
        cases ds with
        | nil => exact absurd rfl hds.1
        | cons d ds =>
          show ('.'.isDigit || (('.' == '.') && d.isDigit)) = true
          rw [hds.2 d (List.mem_cons_self ..)]
          rfl

theorem IsLiteral.ne_nil {cs : List Char} (h : IsLiteral cs) : cs ≠ [] := by
  cases h with
  | hexadecimal => exact List.cons_ne_nil _ _
  | decimal _ _ _ hne =>
    rw [← List.append_assoc]
    exact List.append_ne_nil_of_left_ne_nil hne _

theorem mem_of_startsNumber {c : Char} {cs : List Char} (h : startsNumber c cs = true) :
    c ∈ "0123456789.".toList := by
  simp only [Lexeme.startsNumber, Bool.or_eq_true, Bool.and_eq_true, beq_iff_eq] at h
  rcases h with h | ⟨rfl, -⟩
  · exact List.mem_append_left ['.'] (mem_digits h)
  · decide

/-- What a number starts with starts no other token. -/
theorem of_startsNumber {c : Char} {cs : List Char} (h : startsNumber c cs = true) :
    isWhitespace c = false ∧ isParenthesis c = false ∧ isIdentifierStart c = false
      ∧ (c == ',') = false := by
  have hall : ∀ d ∈ "0123456789.".toList, isWhitespace d = false ∧ isParenthesis d = false
      ∧ isIdentifierStart d = false ∧ (d == ',') = false := forall_mem_of_all (by decide)
  exact hall c (mem_of_startsNumber h)

/-- What starts like a number is one, unless an operator is found there. -/
theorem first_of_startsNumber {operators : OperatorTrie} {c : Char} {cs : List Char}
    (h : startsNumber c cs = true) (hnone : operators.match? (c :: cs) = none) :
    first operators c cs = number (c :: cs) := by
  obtain ⟨hblank, hparen, hstart, hcomma⟩ := of_startsNumber h
  simp only [first, hblank, hparen, hstart, hcomma, hnone, h, Bool.false_eq_true, if_false, if_true]

/-- A literal starts with no sign. -/
theorem IsLiteral.stops_isSign {cs : List Char} (h : IsLiteral cs) : Stops isSign cs := by
  have hall : ∀ d ∈ "0123456789.".toList, isSign d = false :=
    forall_mem_of_all (by decide)
  cases cs with
  | nil => exact absurd rfl h.ne_nil
  | cons c cs =>
    intro d hd
    rw [← Option.some.inj hd]
    exact hall c (mem_of_startsNumber h.startsNumber)

/-- A text that is a literal is one piece. -/
theorem ofText_of_isLiteral {operators : OperatorTrie} {cs : List Char} (h : IsLiteral cs)
    (hnone : operators.match? cs = none) : ofText operators cs = [⟨cs, .token .constant⟩] := by
  cases cs with
  | nil => exact absurd rfl h.ne_nil
  | cons c cs =>
    have hfirst := (first_of_startsNumber h.startsNumber hnone).trans (number_of_isLiteral h)
    exact split_cons (List.append_nil cs).symm hfirst

end Lexeme

open Lexeme

/-- A literal that no operator stands at the start of is a single token. -/
theorem Scanner.tokensOf_of_isLiteral {d : Datum} {ops : List String}
    (hops : operators? d = .ok ops) {limits : Limits} {text : String}
    (hliteral : IsLiteral text.toList)
    (hnone : ∀ op ∈ ops, ¬ op.toList <+: text.toList)
    (hshort : (text.toList.length : Int) ≤ limits.expressionLength) :
    tokensOf d limits text = .ok [⟨.constant, text, 0⟩] := by
  have hpieces := ofText_of_isLiteral hliteral (OperatorTrie.match?_eq_none hnone)
  have hscan : Scan.ofText (.ofList ops) text = ⟨[⟨.constant, text, 0⟩], []⟩ := by
    rw [Scan.ofText, hpieces, tokens, tokens, details, details, String.ofList_toList]
    rfl
  rw [tokensOf_eq hops, Token.ofText_of_short hshort, hscan]
  rfl

end Reckon
