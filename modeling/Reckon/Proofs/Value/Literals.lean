import Mathlib.Data.Nat.Digits.Defs
import Reckon.Proofs.Token.Constants
import Reckon.Value.Literal
/-
  What a literal denotes, said without reading it: hexadecimal digits denote a number in base
  sixteen, decimal digits alone one in base ten, and a fraction or an exponent makes a floating
  point number of them, the nearest to the decimal (`Literal.Denotes`). The literals are the texts
  that denote something (`Literal.isLiteral_iff_exists_denotes`), and the value of one is what it
  denotes, as long as decimal digits alone are not too many (`Literal.value_of_denotes`).

  The texts that numbers are read from may hold blanks, signs and underscores, and digits of any
  script. A literal has none of that but the sign of its exponent (`Reading.Bare`), so nothing is
  cleared away or skipped.
-/
namespace Reckon

open CharClass Lexeme

namespace Reading

/-! ## Digits -/

/-- The number that digits denote in a base. -/
def natOf (base : Nat) (ds : List Char) : Nat := Nat.ofDigits base (ds.map digitValue).reverse

/-- Digits read one by one give the number that they denote. -/
theorem value_eq_natOf (base : Nat) (ds : List Char) : value base ds = natOf base ds := by
  induction ds using List.reverseRecOn with
  | nil => rfl
  | append_singleton ds c ih =>
    rw [value_concat, ih, natOf, natOf, List.map_append, List.reverse_append, List.map_singleton,
      List.reverse_singleton, List.singleton_append, Nat.ofDigits_cons]
    ring

/-! ## Bare texts -/

/-- A character that is read as it is: of ASCII, and neither a blank nor an underscore. -/
def Bare (c : Char) : Prop := c.toNat < 127 ∧ isBlank c = false ∧ c ≠ '_'

instance (c : Char) : Decidable (Bare c) := inferInstanceAs (Decidable (_ ∧ _ ∧ _))

theorem bare_of_isHexDigit {c : Char} (h : isHexDigit c = true) : Bare c := by
  have hall : ∀ d ∈ "0123456789abcdefABCDEF".toList, Bare d := forall_mem_of_all (by decide)
  exact hall c (mem_hexDigits h)

theorem bare_of_isDigit {c : Char} (h : c.isDigit = true) : Bare c := by
  have hall : ∀ d ∈ "0123456789".toList, Bare d := forall_mem_of_all (by decide)
  exact hall c (mem_digits h)

theorem bare_of_isExponent {expo : List Char} (h : IsExponent expo) : ∀ c ∈ expo, Bare c := by
  have hmark : ∀ e, isExponentMarker e = true → Bare e := by
    intro e he
    rcases of_isExponentMarker he with rfl | rfl
    · decide
    · decide
  cases h with
  | none => exact List.forall_mem_nil _
  | unsigned he hds =>
    exact List.forall_mem_cons.2 ⟨hmark _ he, fun c hc => bare_of_isDigit (hds.2 c hc)⟩
  | @signed e s ds he hs hds =>
    have hsign : Bare s := by
      simp only [isSign, Bool.or_eq_true, beq_iff_eq] at hs
      rcases hs with rfl | rfl
      · decide
      · decide
    exact List.forall_mem_cons.2 ⟨hmark _ he,
      List.forall_mem_cons.2 ⟨hsign, fun c hc => bare_of_isDigit (hds.2 c hc)⟩⟩

theorem bare_of_isFraction {frac : List Char} (h : IsFraction frac) : ∀ c ∈ frac, Bare c := by
  cases h with
  | none => exact List.forall_mem_nil _
  | point hds =>
    exact List.forall_mem_cons.2 ⟨by decide, fun c hc => bare_of_isDigit (hds.2 c hc)⟩

/-- Literals are bare. -/
theorem bare_of_isLiteral {cs : List Char} (h : IsLiteral cs) : ∀ c ∈ cs, Bare c := by
  cases h with
  | @hexadecimal x ds hx hds =>
    have hmark : Bare x := by
      simp only [isHexMarker, Bool.or_eq_true, beq_iff_eq] at hx
      rcases hx with rfl | rfl
      · decide
      · decide
    exact List.forall_mem_cons.2 ⟨by decide,
      List.forall_mem_cons.2 ⟨hmark, fun c hc => bare_of_isHexDigit (hds.2 c hc)⟩⟩
  | decimal hwhole hf hexpo =>
    exact List.forall_mem_append.2 ⟨fun c hc => bare_of_isDigit (hwhole c hc),
      List.forall_mem_append.2 ⟨bare_of_isFraction hf, bare_of_isExponent hexpo⟩⟩

variable {text : String} {cs ds : List Char}

theorem plain_of_bare {c : Char} (h : Bare c) : plain c = c := by
  rw [plain, if_pos h.1]

theorem dropWhile_of_bare (h : ∀ c ∈ cs, Bare c) : cs.dropWhile isBlank = cs := by
  cases cs with
  | nil => rfl
  | cons c cs =>
    rw [List.dropWhile_cons_of_neg]
    rw [(h c (List.mem_cons_self ..)).2.1]
    decide

theorem plainText_of_bare (h : ∀ c ∈ text.toList, Bare c) : plainText text = text.toList := by
  have hplain : text.toList.map plain = text.toList := by
    rw [List.map_congr_left fun c hc => plain_of_bare (h c hc), List.map_id']
  rw [plainText, hplain, dropWhile_of_bare h]

theorem withoutUnderscores_of_bare (h : ∀ c ∈ cs, Bare c) : withoutUnderscores cs = cs :=
  List.filter_eq_self.2 fun c hc => bne_iff_ne.2 (h c hc).2.2

theorem wellGrouped_of_bare (h : ∀ c ∈ cs, Bare c) {lead : Bool} (hlead : lead = true ∨ cs ≠ []) :
    wellGrouped lead cs = true := by
  induction cs generalizing lead with
  | nil => exact hlead.resolve_right fun hne => hne rfl
  | cons c cs ih =>
    have hc : (c == '_') = false := beq_false_of_ne (h c (List.mem_cons_self ..)).2.2
    rw [wellGrouped, hc]
    exact ih (fun d hd => h d (List.mem_cons_of_mem _ hd)) (Or.inl rfl)

theorem underscoresSeparate_of_bare (h : ∀ c ∈ cs, Bare c) (before : Bool) :
    underscoresSeparate before cs = true := by
  induction cs generalizing before with
  | nil => rfl
  | cons c cs ih =>
    have hc : c ≠ '_' := (h c (List.mem_cons_self ..)).2.2
    rw [underscoresSeparate.eq_3 before c cs hc]
    exact ih (fun d hd => h d (List.mem_cons_of_mem _ hd)) _

theorem takeSign_of_stops (h : Stops isSign cs) : takeSign cs = (false, cs) := by
  unfold takeSign
  split
  · exact absurd (h '+' rfl) (by decide)
  · exact absurd (h '-' rfl) (by decide)
  · rfl

theorem digitRun_of_forall {p : Char → Bool} (h : ∀ c ∈ ds, p c = true) : digitRun p ds = ds := by
  refine List.takeWhile_eq_self_iff.2 fun c hc => ?_
  rw [h c hc, Bool.true_or]

theorem stops_isSign_of_digits (h : ∀ c ∈ ds, c.isDigit = true) : Stops isSign ds :=
  fun c hc => isSign_eq_false_of_isDigit (h c (List.mem_of_head? hc))

/-! ## Numbers -/

/-- Decimal digits are read in base ten, unless they are too many. -/
theorem decimalInt_of_digits (h : Digits Char.isDigit text.toList) :
    decimalInt text =
      if maxDigits < text.toList.length then .error (.tooManyDigits text.toList.length)
      else .ok (natOf 10 text.toList) := by
  have hbare : ∀ c ∈ text.toList, Bare c := fun c hc => bare_of_isDigit (h.2 c hc)
  simp only [decimalInt, plainText_of_bare hbare, takeSign_of_stops (stops_isSign_of_digits h.2),
    digitRun_of_forall h.2, withoutUnderscores_of_bare hbare,
    wellGrouped_of_bare hbare (Or.inr h.1), List.drop_length, List.all_nil, value_eq_natOf]
  rfl

/-- Digits behind a hexadecimal mark are read in base sixteen, however many. -/
theorem hexInt_of_digits {x : Char} (htext : text.toList = '0' :: x :: ds)
    (hx : isHexMarker x = true) (h : Digits CharClass.isHexDigit ds) :
    hexInt text = .ok (natOf 16 ds) := by
  have hall : ∀ c ∈ text.toList, Bare c := by
    rw [htext]
    exact bare_of_isLiteral (.hexadecimal hx h)
  have hbare : ∀ c ∈ ds, Bare c := fun c hc => bare_of_isHexDigit (h.2 c hc)
  have hrun : digitRun isHexDigit ds = ds := digitRun_of_forall h.2
  simp only [hexInt, plainText_of_bare hall, htext, List.drop_succ_cons, List.drop_zero, hrun,
    withoutUnderscores_of_bare hbare, wellGrouped_of_bare hbare (Or.inl rfl), h.isEmpty,
    List.drop_length, List.all_nil, value_eq_natOf]
  rfl

/-- The power of ten that an exponent denotes. -/
def power : List Char → Int
  | _ :: '-' :: ds => -(natOf 10 ds : Int)
  | _ :: '+' :: ds => natOf 10 ds
  | _ :: ds => natOf 10 ds
  | [] => 0

theorem power_of_digits {e : Char} (h : Digits Char.isDigit ds) :
    power (e :: ds) = natOf 10 ds := by
  have hsign := stops_isSign_of_digits h.2
  cases ds with
  | nil => exact absurd rfl h.1
  | cons d ds =>
    have hminus : d ≠ '-' := fun hd => absurd (hsign d rfl) (by rw [hd]; decide)
    have hplus : d ≠ '+' := fun hd => absurd (hsign d rfl) (by rw [hd]; decide)
    unfold power
    split
    · next heq => exact absurd (List.cons.inj (List.cons.inj heq).2).1 hminus
    · next heq => exact absurd (List.cons.inj (List.cons.inj heq).2).1 hplus
    · next heq => rw [(List.cons.inj heq).2]
    · next heq => exact absurd heq (List.cons_ne_nil _ _)

/-- An exponent is read as the power of ten that it denotes. -/
theorem exponent?_of_isExponent {expo : List Char} (h : IsExponent expo) :
    exponent? expo = some (power expo) := by
  cases h with
  | none => rfl
  | @unsigned e ds he hds =>
    have hall : ds.all Char.isDigit = true := List.all_eq_true.2 hds.2
    have hmark : (e == 'e' || e == 'E') = true := he
    simp only [exponent?, hmark, if_true, takeSign_of_stops (stops_isSign_of_digits hds.2),
      hds.isEmpty, hall, value_eq_natOf, power_of_digits hds]
    rfl
  | @signed e s ds he hs hds =>
    have hall : ds.all Char.isDigit = true := List.all_eq_true.2 hds.2
    have hmark : (e == 'e' || e == 'E') = true := he
    simp only [isSign, Bool.or_eq_true, beq_iff_eq] at hs
    rcases hs with rfl | rfl
    · simp only [exponent?, hmark, if_true, takeSign, hds.isEmpty, hall, value_eq_natOf]
      rfl
    · simp only [exponent?, hmark, if_true, takeSign, hds.isEmpty, hall, value_eq_natOf]
      rfl

theorem dropWhile_append_of_forall {p : Char → Bool} {u v : List Char} (hu : ∀ c ∈ u, p c = true)
    (hv : Stops p v) : (u ++ v).dropWhile p = v := by
  rw [List.dropWhile_append_of_pos hu]
  cases v with
  | nil => rfl
  | cons c v => rw [List.dropWhile_cons_of_neg (by rw [hv c rfl]; decide)]

theorem takeFraction_append {frac expo : List Char} (hf : IsFraction frac) (hx : IsExponent expo) :
    takeFraction (frac ++ expo) = (frac.tail, expo) := by
  have hdigit := hx.stops fun _ => isDigit_of_isExponentMarker
  cases hf with
  | none =>
    have hpoint : Stops (· == '.') expo := hx.stops fun _ => isPoint_of_isExponentMarker
    show takeFraction expo = ([], expo)
    unfold takeFraction
    split
    · exact absurd (hpoint '.' rfl) (by decide)
    · rfl
  | @point ds hds =>
    rw [List.cons_append, takeFraction, takeWhile_append_of_forall hds.2 hdigit,
      dropWhile_append_of_forall hds.2 hdigit]
    rfl

/-- A decimal is read as the floating point number nearest to it. -/
theorem decimalFloat_of_parts {whole frac expo : List Char}
    (htext : text.toList = whole ++ (frac ++ expo)) (hwhole : ∀ c ∈ whole, c.isDigit = true)
    (hf : IsFraction frac) (hx : IsExponent expo) (hne : whole ++ frac ≠ []) :
    decimalFloat text = .ok (Binary64.ofDecimal false (natOf 10 (whole ++ frac.tail))
      (power expo - frac.tail.length)) := by
  have hliteral : IsLiteral text.toList := by
    rw [htext]
    exact .decimal hwhole hf hx hne
  have hbare := bare_of_isLiteral hliteral
  have htrimmed : (text.toList.reverse.dropWhile isBlank).reverse = text.toList := by
    rw [dropWhile_of_bare fun c hc => hbare c (List.mem_reverse.1 hc), List.reverse_reverse]
  have hstops := hf.stops_append hx (by decide) fun _ => isDigit_of_isExponentMarker
  have hdigits : (whole.isEmpty && frac.tail.isEmpty) = false := by
    cases whole with
    | cons => rfl
    | nil =>
      cases hf with
      | none => exact absurd rfl hne
      | point hds => exact hds.isEmpty
  simp only [decimalFloat, plainText_of_bare hbare, htrimmed, underscoresSeparate_of_bare hbare,
    withoutUnderscores_of_bare hbare, takeSign_of_stops hliteral.stops_isSign]
  rw [htext, takeWhile_append_of_forall hwhole hstops, dropWhile_append_of_forall hwhole hstops,
    takeFraction_append hf hx]
  simp only [exponent?_of_isExponent hx, hdigits, value_eq_natOf]
  rfl

end Reading

/-! ## Values -/

namespace Literal

open Reading

/-- What a literal denotes. -/
inductive Denotes : List Char → Value → Prop
  | hexadecimal {x : Char} {ds : List Char} (mark : isHexMarker x = true)
      (digits : Digits CharClass.isHexDigit ds) : Denotes ('0' :: x :: ds) (.int (natOf 16 ds))
  | whole {ds : List Char} (digits : Digits Char.isDigit ds) : Denotes ds (.int (natOf 10 ds))
  | decimal {whole frac expo : List Char} (digits : ∀ c ∈ whole, c.isDigit = true)
      (fraction : IsFraction frac) (exponent : IsExponent expo) (nonempty : whole ++ frac ≠ [])
      (fractional : frac ++ expo ≠ []) :
      Denotes (whole ++ (frac ++ expo)) (.float (Binary64.ofDecimal false
        (natOf 10 (whole ++ frac.tail)) (power expo - frac.tail.length)))

/-- The texts that denote something are the literals. -/
theorem isLiteral_iff_exists_denotes {cs : List Char} : IsLiteral cs ↔ ∃ v, Denotes cs v := by
  constructor
  · intro h
    cases h with
    | hexadecimal hx hds => exact ⟨_, .hexadecimal hx hds⟩
    | @decimal whole frac expo hwhole hf hexpo hne =>
      by_cases hfractional : frac ++ expo = []
      · obtain ⟨rfl, rfl⟩ := List.append_eq_nil_iff.1 hfractional
        rw [List.append_nil] at hne
        rw [List.append_nil, List.append_nil]
        exact ⟨_, .whole ⟨hne, hwhole⟩⟩
      · exact ⟨_, .decimal hwhole hf hexpo hne hfractional⟩
  · rintro ⟨v, h⟩
    cases h with
    | hexadecimal hx hds => exact .hexadecimal hx hds
    | whole hds =>
      have hliteral := IsLiteral.decimal hds.2 .none .none (by rw [List.append_nil]; exact hds.1)
      rwa [List.append_nil, List.append_nil] at hliteral
    | decimal hwhole hf hexpo hne => exact .decimal hwhole hf hexpo hne

theorem isHex_eq_false {cs : List Char}
    (h : ∀ x tail, isHexMarker x = true → cs ≠ '0' :: x :: tail) : isHex cs = false := by
  cases hhex : isHex cs with
  | false => rfl
  | true =>
    unfold isHex at hhex
    split at hhex
    · next x tail => exact absurd rfl (h x tail hhex)
    · exact absurd hhex (by decide)

theorem isHex_of_digits {ds : List Char} (h : Digits Char.isDigit ds) : isHex ds = false := by
  refine isHex_eq_false fun x tail hx => ?_
  have hne : ds ++ [] ≠ [] := by
    rw [List.append_nil]
    exact h.1
  have hother : ds ++ ([] ++ []) ≠ '0' :: x :: tail := ne_hexadecimal h.2 .none .none hne hx
  rwa [List.append_nil, List.append_nil] at hother

theorem isFractional_of_digits {ds : List Char} (h : Digits Char.isDigit ds) :
    isFractional ds = false := by
  have hall : ∀ d ∈ "0123456789".toList, (d == '.' || d == 'e' || d == 'E') = false :=
    forall_mem_of_all (by decide)
  refine List.any_eq_false.2 fun c hc => ?_
  rw [hall c (mem_digits (h.2 c hc))]
  decide

theorem isFractional_of_parts {whole frac expo : List Char} (hf : IsFraction frac)
    (hx : IsExponent expo) (hne : frac ++ expo ≠ []) :
    isFractional (whole ++ (frac ++ expo)) = true := by
  have hmark : ∀ {e : Char}, isExponentMarker e = true →
      (e == '.' || e == 'e' || e == 'E') = true := by
    intro e he
    rcases of_isExponentMarker he with rfl | rfl
    · decide
    · decide
  have hany : (frac ++ expo).any (fun c => c == '.' || c == 'e' || c == 'E') = true := by
    cases hf with
    | point => exact List.any_eq_true.2 ⟨'.', List.mem_cons_self .., by decide⟩
    | none =>
      cases hx with
      | none => exact absurd rfl hne
      | unsigned he => exact List.any_eq_true.2 ⟨_, List.mem_cons_self .., hmark he⟩
      | signed he => exact List.any_eq_true.2 ⟨_, List.mem_cons_self .., hmark he⟩
  rw [isFractional, List.any_append, hany, Bool.or_true]

/-- The value of a literal is what it denotes. -/
theorem value_of_denotes {text : String} {v : Value} (h : Denotes text.toList v)
    (hshort : (∀ c ∈ text.toList, c.isDigit = true) → text.toList.length ≤ maxDigits) :
    Literal.value text = .ok v := by
  generalize htext : text.toList = cs at h
  cases h with
  | @hexadecimal x ds hx hds =>
    have hhex : isHex text.toList = true := by
      rw [htext]
      exact hx
    rw [value, if_pos hhex, hexInt_of_digits htext hx hds]
  | whole hds =>
    rw [← htext] at hds ⊢
    rw [value, isHex_of_digits hds, isFractional_of_digits hds, decimalInt_of_digits hds,
      if_neg (Nat.not_lt.2 (hshort hds.2))]
    rfl
  | @decimal whole frac expo hwhole hf hexpo hne hparts =>
    have hhex : isHex text.toList = false := by
      rw [htext]
      exact isHex_eq_false fun x tail hx => ne_hexadecimal hwhole hf hexpo hne hx
    have hfractional : isFractional text.toList = true := by
      rw [htext]
      exact isFractional_of_parts hf hexpo hparts
    rw [value, hhex, hfractional, decimalFloat_of_parts htext hwhole hf hexpo hne]
    rfl

end Literal

end Reckon
