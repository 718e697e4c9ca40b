import Reckon.Proofs.Token.Boundary
/-
  Literals, said without the scanner: `0x` with hexadecimal digits, or decimal digits with a
  fraction and an exponent (`Lexeme.IsLiteral`). The number that is found at the start of a text is
  a literal unless something is missing of it (`Lexeme.isLiteral_number`), and no beginning of the
  text that is a literal is longer (`Lexeme.IsLiteral.length_le`).
-/
namespace Reckon

/-! ## Longest beginnings -/

/-- The longest beginning of a text with a property. -/
structure Longest (P : List Char → Prop) (w cs : List Char) : Prop where
  isPrefix : w <+: cs
  holds : P w
  longest : ∀ u, u <+: cs → P u → u.length ≤ w.length

namespace Lexeme

open CharClass

theorem longest_takeWhile (p : Char → Bool) (cs : List Char) :
    Longest (fun u => ∀ c ∈ u, p c = true) (cs.takeWhile p) cs where
  isPrefix := List.takeWhile_prefix p
  holds := fun c hc => List.all_eq_true.1 List.all_takeWhile c hc
  longest := by
    rintro u ⟨r, rfl⟩ hu
    rw [List.takeWhile_append_of_pos hu, List.length_append]
    omega

/-- Characters of a class with something behind them that is not of the class are all there are. -/
theorem takeWhile_eq_of_append {p : Char → Bool} {u v cs : List Char} (hu : ∀ c ∈ u, p c = true)
    (hv : Stops p v) (hne : v ≠ []) (h : u ++ v <+: cs) : cs.takeWhile p = u := by
  obtain ⟨r, rfl⟩ := h
  cases v with
  | nil => exact absurd rfl hne
  | cons c v =>
    rw [List.append_assoc, List.takeWhile_append_of_pos hu, List.cons_append,
      List.takeWhile_cons_of_neg (by rw [hv c rfl]; decide), List.append_nil]

theorem isPrefix_drop {u v cs : List Char} (h : u ++ v <+: cs) : v <+: cs.drop u.length := by
  obtain ⟨r, rfl⟩ := h
  rw [List.append_assoc, List.drop_left]
  exact List.prefix_append v r

/-! ## Literals -/

/-- At least one character, all of a class. -/
def Digits (p : Char → Bool) (cs : List Char) : Prop := cs ≠ [] ∧ ∀ c ∈ cs, p c = true

/-- Nothing, or a point with digits behind it. -/
inductive IsFraction : List Char → Prop
  | none : IsFraction []
  | point {ds : List Char} (digits : Digits Char.isDigit ds) : IsFraction ('.' :: ds)

/-- Nothing, or an exponent mark with digits behind it, which may have a sign. -/
inductive IsExponent : List Char → Prop
  | none : IsExponent []
  | unsigned {e : Char} {ds : List Char} (mark : isExponentMarker e = true)
      (digits : Digits Char.isDigit ds) : IsExponent (e :: ds)
  | signed {e s : Char} {ds : List Char} (mark : isExponentMarker e = true)
      (sign : isSign s = true) (digits : Digits Char.isDigit ds) : IsExponent (e :: s :: ds)

/-- The literals: `0x` with hexadecimal digits, or decimal digits with a fraction and an exponent,
where one of the digits and the fraction may be missing. -/
inductive IsLiteral : List Char → Prop
  | hexadecimal {x : Char} {ds : List Char} (mark : isHexMarker x = true)
      (digits : Digits isHexDigit ds) : IsLiteral ('0' :: x :: ds)
  | decimal {whole frac expo : List Char} (digits : ∀ c ∈ whole, c.isDigit = true)
      (fraction : IsFraction frac) (exponent : IsExponent expo) (nonempty : whole ++ frac ≠ []) :
      IsLiteral (whole ++ (frac ++ expo))

theorem digits_takeWhile {p : Char → Bool} {cs : List Char}
    (h : (cs.takeWhile p).isEmpty = false) : Digits p (cs.takeWhile p) :=
  ⟨by simpa using h, (longest_takeWhile p cs).holds⟩

theorem isFraction_fraction {cs : List Char} (h : (fraction cs).2 = false) :
    IsFraction (fraction cs).1 := by
  unfold fraction at h ⊢
  split at h
  · exact .point (digits_takeWhile h)
  · exact .none

theorem isExponent_exponent {cs : List Char} (h : (exponent cs).2 = false) :
    IsExponent (exponent cs).1 := by
  cases cs with
  | nil => exact .none
  | cons e cs =>
    by_cases he : isExponentMarker e = true
    · simp only [exponent, he, if_true] at h ⊢
      cases cs with
      | nil => exact absurd h (by decide)
      | cons s cs =>
        by_cases hs : isSign s = true
        · simp only [sign, hs, if_true] at h ⊢
          exact .signed he hs (digits_takeWhile h)
        · simp only [sign, hs, Bool.false_eq_true, if_false] at h ⊢
          exact .unsigned he (digits_takeWhile h)
    · simp only [exponent, he, Bool.false_eq_true, if_false]
      exact .none

/-- No exponent at the start of a text is longer than the one that is found there. -/
theorem IsExponent.length_le {u cs : List Char} (h : IsExponent u) (hu : u <+: cs) :
    u.length ≤ (exponent cs).1.length := by
  cases h with
  | none => exact Nat.zero_le _
  | @unsigned e ds he hds =>
    obtain ⟨r, rfl⟩ := hu
    have hsign : sign (ds ++ r) = [] := by
      refine sign_of_stops fun c hc => isSign_eq_false_of_isDigit (hds.2 c ?_)
      cases ds with
      | nil => exact absurd rfl hds.1
      | cons d ds =>
        obtain rfl : d = c := Option.some.inj hc
        exact List.mem_cons_self ..
    have hle :=
      (longest_takeWhile Char.isDigit (ds ++ r)).longest ds (List.prefix_append ds r) hds.2
    simp only [List.cons_append, exponent, he, if_true, hsign, List.length_nil, List.drop_zero,
      List.nil_append, List.length_cons]
    omega
  | @signed e s ds he hs hds =>
    obtain ⟨r, rfl⟩ := hu
    have hle :=
      (longest_takeWhile Char.isDigit (ds ++ r)).longest ds (List.prefix_append ds r) hds.2
    simp only [List.cons_append, exponent, he, if_true, sign, hs, List.length_cons, List.length_nil,
      List.drop_succ_cons, List.drop_zero, List.nil_append]
    omega

theorem IsExponent.stops {u : List Char} (h : IsExponent u) {p : Char → Bool}
    (hp : ∀ c, isExponentMarker c = true → p c = false) : Stops p u := by
  intro c hc
  cases h with
  | none => exact absurd hc (by simp)
  | unsigned he =>
    rw [← Option.some.inj hc]
    exact hp _ he
  | signed he =>
    rw [← Option.some.inj hc]
    exact hp _ he

theorem isDigit_of_isExponentMarker {c : Char} (h : isExponentMarker c = true) :
    c.isDigit = false := by
  rcases of_isExponentMarker h with rfl | rfl
  · decide
  · decide

theorem isPoint_of_isExponentMarker {c : Char} (h : isExponentMarker c = true) :
    (c == '.') = false := by
  rcases of_isExponentMarker h with rfl | rfl
  · decide
  · decide

/-- The digits of a literal stop at its point, or at its exponent. -/
theorem IsFraction.stops_append {frac expo : List Char} (hf : IsFraction frac)
    (hx : IsExponent expo) {p : Char → Bool} (hpoint : p '.' = false)
    (hp : ∀ c, isExponentMarker c = true → p c = false) : Stops p (frac ++ expo) := by
  cases hf with
  | none => exact hx.stops hp
  | point =>
    intro c hc
    obtain rfl : '.' = c := Option.some.inj hc
    exact hpoint

/-- Digits with an exponent behind them are no longer than all the digits with the exponent that is
found behind those. -/
theorem digits_append_length_le {ds x cs : List Char} (hds : ∀ c ∈ ds, c.isDigit = true)
    (hx : IsExponent x) (h : ds ++ x <+: cs) :
    ds.length + x.length ≤ (cs.takeWhile Char.isDigit).length
      + (exponent (cs.drop (cs.takeWhile Char.isDigit).length)).1.length := by
  by_cases hne : x = []
  · rw [hne, List.append_nil] at h
    have := (longest_takeWhile Char.isDigit cs).longest ds h hds
    rw [hne, List.length_nil]
    omega
  · have hall := takeWhile_eq_of_append hds (hx.stops fun _ => isDigit_of_isExponentMarker) hne h
    have := hx.length_le (isPrefix_drop h)
    rw [hall]
    omega

/-- The same for a fraction with an exponent behind it. -/
theorem IsFraction.append_length_le {f x cs : List Char} (hf : IsFraction f) (hx : IsExponent x)
    (h : f ++ x <+: cs) :
    (f ++ x).length ≤ (fraction cs).1.length
      + (exponent (cs.drop (fraction cs).1.length)).1.length := by
  cases hf with
  | none =>
    by_cases hne : x = []
    · rw [hne]
      exact Nat.zero_le _
    · have hpoint : Stops (· == '.') x := hx.stops fun _ => isPoint_of_isExponentMarker
      have hhead : cs.head? ≠ some '.' := by
        obtain ⟨r, rfl⟩ := h
        cases x with
        | nil => exact absurd rfl hne
        | cons c x =>
          intro hc
          obtain rfl : c = '.' := Option.some.inj hc
          exact absurd (hpoint '.' rfl) (by decide)
      rw [fraction_eq_nil hhead]
      have := hx.length_le h
      simp only [List.length_nil, List.drop_zero, List.nil_append]
      omega
  | @point ds hds =>
    obtain ⟨r, rfl⟩ := h
    have := digits_append_length_le hds.2 hx (List.prefix_append (ds ++ x) r)
    simp only [List.cons_append, fraction, List.length_cons, List.drop_succ_cons,
      List.length_append]
    omega

/-- No decimal literal at the start of a text is longer than the piece that is found there. -/
theorem decimal_length_le {whole f x cs : List Char} (hwhole : ∀ c ∈ whole, c.isDigit = true)
    (hf : IsFraction f) (hx : IsExponent x) (h : whole ++ (f ++ x) <+: cs) :
    (whole ++ (f ++ x)).length ≤ (decimal cs).text.length := by
  have htext : (decimal cs).text.length = (wholePart cs).length + ((fractionPart cs).1.length
      + (exponent ((cs.drop (wholePart cs).length).drop (fractionPart cs).1.length)).1.length) := by
    rw [decimal_eq, ofNumber_text, exponentPart, List.drop_drop]
    simp only [List.length_append]
    omega
  by_cases hne : f ++ x = []
  · rw [hne, List.append_nil] at h ⊢
    have : whole.length ≤ (wholePart cs).length :=
      (longest_takeWhile Char.isDigit cs).longest whole h hwhole
    omega
  · have hstops : Stops Char.isDigit (f ++ x) :=
      hf.stops_append hx (by decide) fun _ => isDigit_of_isExponentMarker
    have hall : wholePart cs = whole := takeWhile_eq_of_append hwhole hstops hne h
    have := hf.append_length_le hx (isPrefix_drop h)
    rw [htext, fractionPart, hall, List.length_append]
    omega

/-! ## Numbers -/

theorem isHexMarker_eq_false_of_isDigit {c : Char} (h : c.isDigit = true) :
    isHexMarker c = false := by
  cases hm : isHexMarker c with
  | false => rfl
  | true =>
    unfold isHexMarker at hm
    simp only [Bool.or_eq_true, beq_iff_eq] at hm
    rcases hm with rfl | rfl
    · exact absurd h (by decide)
    · exact absurd h (by decide)

/-- Of a text that starts like a hexadecimal literal, a decimal one has the zero at most. -/
theorem length_le_one_of_isHexMarker {whole f e tail : List Char} {x : Char}
    (hwhole : ∀ c ∈ whole, c.isDigit = true) (hf : IsFraction f) (he : IsExponent e)
    (hne : whole ++ f ≠ []) (hx : isHexMarker x = true)
    (h : whole ++ (f ++ e) <+: '0' :: x :: tail) : (whole ++ (f ++ e)).length ≤ 1 := by
  have hstops : Stops isHexMarker (f ++ e) := by
    refine hf.stops_append he (by decide) fun c hc => ?_
    rcases of_isExponentMarker hc with rfl | rfl
    · decide
    · decide
  have hnil : ∀ v : List Char, Stops isHexMarker v → v <+: x :: tail → v = [] := by
    intro v hv hpre
    cases v with
    | nil => rfl
    | cons c v =>
      obtain rfl := (List.cons_prefix_cons.1 hpre).1
      exact absurd (hv c rfl) (by rw [hx]; decide)
  cases whole with
  | nil =>
    cases hf with
    | none => exact absurd rfl hne
    | point => exact absurd (List.cons_prefix_cons.1 h).1 (by decide)
  | cons d whole =>
    have hrest : whole ++ (f ++ e) = [] := by
      refine hnil _ ?_ (List.cons_prefix_cons.1 h).2
      cases whole with
      | nil => exact hstops
      | cons c whole =>
        intro c' hc'
        obtain rfl : c = c' := Option.some.inj hc'
        exact isHexMarker_eq_false_of_isDigit
          (hwhole c (List.mem_cons_of_mem _ (List.mem_cons_self ..)))
    rw [List.cons_append, hrest]
    exact Nat.le_refl 1

/-- No literal at the start of a text is longer than the number that is found there. -/
theorem IsLiteral.length_le {u cs : List Char} (h : IsLiteral u) (hu : u <+: cs) :
    u.length ≤ (number cs).text.length := by
  cases h with
  | @hexadecimal x ds hx hds =>
    obtain ⟨r, rfl⟩ := hu
    have := (longest_takeWhile isHexDigit (ds ++ r)).longest ds (List.prefix_append ds r) hds.2
    simp only [List.cons_append, number, hx, if_true, ofNumber_text, List.length_cons]
    omega
  | @decimal whole frac expo hwhole hfrac hexpo hne =>
    rcases number_cases cs with ⟨x, tail, rfl, hx⟩ | ⟨-, hdecimal⟩
    · -- behind the zero of a decimal literal there is no hexadecimal mark
      have hlong : 2 ≤ (number ('0' :: x :: tail)).text.length := by
        simp only [number, hx, if_true, ofNumber_text, List.length_cons]
        omega
      have hshort : (whole ++ (frac ++ expo)).length ≤ 1 :=
        length_le_one_of_isHexMarker hwhole hfrac hexpo hne hx hu
      omega
    · rw [hdecimal]
      exact decimal_length_le hwhole hfrac hexpo hu

theorem of_ofNumber {text : List Char} {problems : List (LexicalProblem × Nat)}
    {kind : Token.Kind} (h : (ofNumber text problems).role = .token kind) :
    problems = [] ∧ kind = .constant := by
  cases problems with
  | nil => exact ⟨rfl, (Role.token.inj h).symm⟩
  | cons p ps => exact absurd h (by simp [ofNumber])

theorem isLiteral_decimal {cs : List Char} {kind : Token.Kind}
    (h : (decimal cs).role = .token kind) (hne : wholePart cs ++ (fractionPart cs).1 ≠ []) :
    kind = .constant ∧ IsLiteral (decimal cs).text := by
  rw [decimal_eq] at h ⊢
  obtain ⟨hproblems, hkind⟩ := of_ofNumber h
  obtain ⟨hfrac, hexpo⟩ := List.append_eq_nil_iff.1 hproblems
  have hfrac : (fractionPart cs).2 = false := by
    cases hf : (fractionPart cs).2 with
    | false => rfl
    | true => exact absurd hfrac (by simp [hf])
  have hexpo : (exponentPart cs).2 = false := by
    cases he : (exponentPart cs).2 with
    | false => rfl
    | true => exact absurd hexpo (by simp [he])
  rw [ofNumber_text, List.append_assoc]
  exact ⟨hkind, .decimal (longest_takeWhile Char.isDigit cs).holds (isFraction_fraction hfrac)
    (isExponent_exponent hexpo) hne⟩

/-- A number that has everything it needs is a literal. -/
theorem isLiteral_number {c : Char} {cs : List Char} {kind : Token.Kind}
    (hstart : startsNumber c cs = true) (h : (number (c :: cs)).role = .token kind) :
    kind = .constant ∧ IsLiteral (number (c :: cs)).text := by
  rcases number_cases (c :: cs) with ⟨x, tail, heq, hx⟩ | ⟨-, hdecimal⟩
  · rw [heq] at h ⊢
    simp only [number, hx, if_true, ofNumber_text] at h ⊢
    obtain ⟨hproblems, hkind⟩ := of_ofNumber h
    refine ⟨hkind, .hexadecimal hx (digits_takeWhile ?_)⟩
    cases hd : (tail.takeWhile isHexDigit).isEmpty with
    | false => rfl
    | true => exact absurd hproblems (by simp [hd])
  · rw [hdecimal] at h ⊢
    refine isLiteral_decimal h ?_
    unfold startsNumber at hstart
    by_cases hdigit : c.isDigit = true
    · simp [wholePart, hdigit]
    · simp only [hdigit, Bool.false_or, Bool.and_eq_true, beq_iff_eq] at hstart
      obtain ⟨rfl, -⟩ := hstart
      simp [wholePart, fractionPart, hdigit, fraction]

end Lexeme

end Reckon
