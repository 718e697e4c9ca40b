import Reckon.Proofs.Expr.Admission
import Reckon.Proofs.Expr.RoundTrip
/-
  Printed expressions and the limits they were read under. The text of a tree has as many nodes and
  arguments as the text that the tree was read from, but it is longer, and its parentheses open
  frames that were not open before. So a printed text is read again under the same limits exactly
  when it is short enough and its parentheses are not too deep (`Expr.ofSource_printed`). Some texts
  within the default limits are printed too deep for them (`Expr.ofSource_printed_signs`).
-/
namespace Reckon

/-! ## Trees that differ in positions -/

theorem Expr.sizeAll_map {g : Expr → Expr} {es : List Expr}
    (h : ∀ e ∈ es, (g e).size = e.size) : Expr.sizeAll (es.map g) = Expr.sizeAll es := by
  induction es with
  | nil => rfl
  | cons e es ih =>
    rw [List.map_cons, Expr.sizeAll, Expr.sizeAll, h e (List.mem_cons_self ..),
      ih fun x hx => h x (List.mem_cons_of_mem _ hx)]

theorem Expr.aritiesAll_map {g : Expr → Expr} {es : List Expr}
    (h : ∀ e ∈ es, (g e).arities = e.arities) :
    Expr.aritiesAll (es.map g) = Expr.aritiesAll es := by
  induction es with
  | nil => rfl
  | cons e es ih =>
    rw [List.map_cons, Expr.aritiesAll, Expr.aritiesAll, h e (List.mem_cons_self ..),
      ih fun x hx => h x (List.mem_cons_of_mem _ hx)]

/-- Positions are no nodes. -/
theorem Expr.size_bare (e : Expr) : e.bare.size = e.size := by
  induction e using Expr.induction with
  | constant => rfl
  | var => rfl
  | unary op e pos ih => rw [Expr.bare, Expr.size, Expr.size, ih]
  | binary op l r pos ihl ihr => rw [Expr.bare, Expr.size, Expr.size, ihl, ihr]
  | call name args pos ih =>
    rw [Expr.bare, Expr.size, Expr.size, Expr.bareAll_eq_map, Expr.sizeAll_map ih]
  | unknown => rfl

/-- Positions are no arguments. -/
theorem Expr.arities_bare (e : Expr) : e.bare.arities = e.arities := by
  induction e using Expr.induction with
  | constant => rfl
  | var => rfl
  | unary op e pos ih => rw [Expr.bare, Expr.arities, Expr.arities, ih]
  | binary op l r pos ihl ihr => rw [Expr.bare, Expr.arities, Expr.arities, ihl, ihr]
  | call name args pos ih =>
    rw [Expr.bare, Expr.arities, Expr.arities, Expr.bareAll_eq_map, List.length_map,
      Expr.aritiesAll_map ih]
  | unknown => rfl

theorem Expr.Same.size_eq {e e' : Expr} (h : e.Same e') : e.size = e'.size := by
  rw [← e.size_bare, ← e'.size_bare, show e.bare = e'.bare from h]

theorem Expr.Same.arities_eq {e e' : Expr} (h : e.Same e') : e.arities = e'.arities := by
  rw [← e.arities_bare, ← e'.arities_bare, show e.bare = e'.bare from h]

/-! ## What is printed -/

/-- What is read has a text that spells a whole phrase with the same tree. The phrase is charged
for the nodes and arguments that were read, and for the parentheses of the text. A text that is too
long is refused, any other one is parsed as that phrase. -/
theorem Expr.exists_reprint {text : String} {levels : Precedence.Source} {operators : Datum}
    {limits : Limits} {e : Expr} {p : Precedence}
    (h : Expr.ofSource text levels operators limits = .ok e) (hops : operators.PlainOperators)
    (hp : Precedence.ofSource levels = .ok p) (hraised : p.Raised) :
    ∃ (printed : String) (f : Phrase), e.toText = .ok printed ∧ f.Whole p ∧ f.expr.Same e
      ∧ f.nesting = e.bracketing
      ∧ (f.expr.size : Int) ≤ limits.nodes
      ∧ (∀ n ∈ f.arities, (n : Int) ≤ limits.arguments)
      ∧ (limits.expressionLength < printed.toList.length →
          Expr.ofSource printed levels operators limits
            = .error (.error (.ofLimit limits .expressionLength printed.toList.length)))
      ∧ ((printed.toList.length : Int) ≤ limits.expressionLength →
          Expr.ofSource printed levels operators limits
            = (Parser.parse p limits (some printed) f.tokens).1) := by
  cases hcreate : Scanner.create (.str text) operators limits with
  | error f =>
    unfold Expr.ofSource at h
    rw [hcreate] at h
    exact absurd h (by simp)
  | ok s =>
    obtain ⟨hall, hplain⟩ := Scanner.create_text hcreate
    rw [Expr.ofSource_eq levels (hall text)] at h
    obtain ⟨ts, htokens, h⟩ := exists_of_bind_eq_ok h
    rw [hp] at h
    obtain ⟨f, hf, rfl, rfl⟩ := Parser.of_parse_eq_ok h
    have hfit := Parser.fits_of_parse hf h
    have hwritable : f.expr.Writable s.operators p :=
      f.writable (fun op level hl => hraised.takes hl) hf.grammatical
        (Token.lexes_of_ofText htokens)
    obtain ⟨printed, f', hprinted, hspells⟩ := Expr.exists_spells (hplain hops) f.expr hwritable 0
    have hsame : f'.expr.Same f.expr := hspells.same
    have hread := Expr.ofSource_eq levels (hall printed)
    rw [hp] at hread
    refine ⟨printed, f', hprinted, ⟨hspells.openAt _, hspells.grammatical⟩, hsame,
      hspells.nesting, ?_, ?_, fun hlong => ?_, fun hshort => ?_⟩
    · have := hfit.nodes
      rw [hsame.size_eq]
      simp only at this
      omega
    · have harities : f'.arities = f.arities := by
        rw [f'.arities_eq_filter, f.arities_eq_filter, hsame.arities_eq]
      rw [harities]
      exact hfit.arities
    · rw [hread, Token.ofText_eq_error_of_long hlong]
      rfl
    · rw [hread, Token.ofText_of_short hshort, hspells.scans.ofText]
      rfl

/-- The default operators between two operands have levels above zero. -/
theorem Precedence.raised_default : default.Raised := raised_of_mem (by simp [default])

theorem Datum.plainOperators_none : Datum.none.PlainOperators :=
  fun _ hitems => absurd hitems (by simp [Datum.items?])

/-- A text that is read with the default operators and tables is printed as a text that is read
again, with the same tree up to positions, exactly when it is short enough and its parentheses are
not too deep. Else the one of these two limits that it exceeds is reported; nodes and arguments
are never too many. -/
theorem Expr.ofSource_printed {text : String} {limits : Limits} {e : Expr}
    (h : Expr.ofSource text .standard .none limits = .ok e) :
    ∃ printed, e.toText = .ok printed
      ∧ ((∃ e', Expr.ofSource printed .standard .none limits = .ok e' ∧ e'.Same e) ↔
          (printed.toList.length : Int) ≤ limits.expressionLength
            ∧ (e.bracketing + 1 : Int) ≤ limits.nestingDepth)
      ∧ (limits.expressionLength < printed.toList.length →
          Expr.ofSource printed .standard .none limits
            = .error (.error (.ofLimit limits .expressionLength printed.toList.length)))
      ∧ ((printed.toList.length : Int) ≤ limits.expressionLength →
          limits.nestingDepth < e.bracketing + 1 →
          ∃ err : Error, Expr.ofSource printed .standard .none limits = .error (.error err)
            ∧ err.problem = .nestingTooDeep limits.nestingDepth) := by
  obtain ⟨printed, f, hprinted, hf, hsame, hnesting, hnodes, harguments, hlong, hshort⟩ :=
    Expr.exists_reprint h Datum.plainOperators_none rfl Precedence.raised_default
  have hcost : (f.cost : Int) = e.bracketing + 1 := by
    rw [f.cost_eq_nesting, hnesting]
    rfl
  refine ⟨printed, hprinted, ⟨?_, ?_⟩, hlong, fun hlength hdeep => ?_⟩
  · rintro ⟨e', hread, -⟩
    by_cases hlength : (printed.toList.length : Int) ≤ limits.expressionLength
    · rw [hshort hlength] at hread
      have hfit := (Parser.fits_of_parse hf hread).nesting
      simp only at hfit
      exact ⟨hlength, by omega⟩
    · rw [hlong (Int.not_le.1 hlength)] at hread
      exact absurd hread (by simp)
  · rintro ⟨hlength, hdepth⟩
    have hfit : Parser.Fits limits {} f := by
      refine ⟨?_, ?_, harguments⟩
      · simp only; omega
      · simp only; omega
    exact ⟨f.expr, (hshort hlength).trans (Parser.parse_of_fits hf hfit), hsame⟩
  · rw [hshort hlength]
    exact Parser.exists_nestingTooDeep hf hnodes harguments (by omega)

theorem Expr.ofSource_printed_mixed :
    Expr.ofSource "2 * (-3 + f(4, 5))" .standard .none {}
        = .ok (.binary "*" (.constant "2" 0) (.binary "+" (.unary "-" (.constant "3" 6) 5)
            (.call "f" [.constant "4" 12, .constant "5" 15] 10) 8) 2)
      ∧ ∃ e', Expr.ofSource "(2 * ((- 3) + f(4, 5)))" .standard .none {} = .ok e'
        ∧ e'.Same (.binary "*" (.constant "2" 0) (.binary "+" (.unary "-" (.constant "3" 6) 5)
            (.call "f" [.constant "4" 12, .constant "5" 15] 10) 8) 2) := by
  have hread : Expr.ofSource "2 * (-3 + f(4, 5))" .standard .none {}
      = .ok (.binary "*" (.constant "2" 0) (.binary "+" (.unary "-" (.constant "3" 6) 5)
          (.call "f" [.constant "4" 12, .constant "5" 15] 10) 8) 2) :=
    eq_ok_of_toOption (by decide +kernel)
  obtain ⟨printed, hprinted, hagain, -⟩ := Expr.ofSource_printed hread
  obtain rfl : "(2 * ((- 3) + f(4, 5)))" = printed := Except.ok.inj hprinted
  exact ⟨hread, hagain.2 ⟨by decide +kernel, by decide +kernel⟩⟩

/-- What comes of reading a text and then the text that it is printed as: the problem of the second
reading, if there is one. -/
def Expr.reprintProblem? (text : String) (limits : Limits) : Option Problem :=
  match Expr.ofSource text .standard .none limits with
  | .error _ => none
  | .ok e =>
    match e.toText with
    | .error _ => none
    | .ok printed =>
      match Expr.ofSource printed .standard .none limits with
      | .error (.error err) => some err.problem
      | _ => none

theorem Expr.of_reprintProblem {text : String} {limits : Limits} {problem : Problem}
    (h : Expr.reprintProblem? text limits = some problem) :
    ∃ e printed err, Expr.ofSource text .standard .none limits = .ok e ∧ e.toText = .ok printed
      ∧ Expr.ofSource printed .standard .none limits = .error (.error err)
      ∧ err.problem = problem := by
  unfold Expr.reprintProblem? at h
  cases hread : Expr.ofSource text .standard .none limits with
  | error f => rw [hread] at h; exact absurd h (by simp)
  | ok e =>
    rw [hread] at h
    simp only at h
    cases hprinted : e.toText with
    | error f => rw [hprinted] at h; exact absurd h (by simp)
    | ok printed =>
      rw [hprinted] at h
      simp only at h
      cases hagain : Expr.ofSource printed .standard .none limits with
      | ok e' => rw [hagain] at h; exact absurd h (by simp)
      | error f =>
        cases f with
        | fault f => rw [hagain] at h; exact absurd h (by simp)
        | error err =>
          rw [hagain] at h
          exact ⟨e, printed, err, rfl, hprinted, hagain, Option.some.inj h⟩

/-- A name behind 32 signs is read, and printed too deep to be read again. A short sum can be
printed too long. -/
theorem Expr.ofSource_printed_signs :
    (∃ e printed err,
        Expr.ofSource (String.join (List.replicate 32 "-") ++ "x") .standard .none {} = .ok e
          ∧ e.toText = .ok printed
          ∧ Expr.ofSource printed .standard .none {} = .error (.error err)
          ∧ err.problem = .nestingTooDeep 64)
      ∧ ∃ e printed err,
        Expr.ofSource "1+1" .standard .none { expressionLength := 3 } = .ok e
          ∧ e.toText = .ok printed
          ∧ Expr.ofSource printed .standard .none { expressionLength := 3 } = .error (.error err)
          ∧ err.problem = .limit "max_expression_length" 3 7 :=
  ⟨Expr.of_reprintProblem (by decide +kernel), Expr.of_reprintProblem (by decide +kernel)⟩

end Reckon
