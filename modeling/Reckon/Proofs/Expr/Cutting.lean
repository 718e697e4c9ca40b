import Reckon.Expr.Reader
import Reckon.Proofs.Expr.Refusals
/-
  Tokens behind an expression. A reader that need not read all tokens stops behind the first
  expression, and the tokens from there on have had no part in what it read: without them the run
  comes to the same end (`Parser.run_take`). The parser does look one token ahead, for operators and
  for the parenthesis of a call. But where it is cut off it has an operand behind it, and so it has
  only seen that the next token does not belong to it.

  Hence the tokens in front of the cursor are an expression by themselves, with the same tree, and
  all tokens together are one as well or are rejected at the cursor (`Reader.parse_stable`).
-/
namespace Reckon

namespace Parser

/-- The same grammar with another place for what is missing at the end of the tokens. -/
def Grammar.endingAt (g : Grammar) (stop : Int) : Grammar := { g with stop }

variable {g : Grammar} {stop : Int} {next after : Option Token} {t : Token} {mode : Mode}
  {stack below : List Frame} {e e' : Expr} {c c' : Cursor}

/-! ## A token hides the end -/

theorem make_endingAt {k k' : Cursor → Step} (h : k c.count = k' c.count) :
    make (g.endingAt stop) c k = make g c k' := by
  have hcheck : (g.endingAt stop).limits.check .nodes c.count.nodes
      = g.limits.check .nodes c.count.nodes := rfl
  unfold make
  rw [hcheck, h]

theorem settle_endingAt (t : Token) (stack : List Frame) (e : Expr) (c : Cursor) :
    settle (g.endingAt stop) (some t) stack e c = settle g (some t) stack e c := by
  induction stack generalizing e c with
  | nil =>
    rw [settle.eq_def, settle.eq_def g]
    rfl
  | cons f below ih =>
    cases ht : takes g (floor (f :: below)) (some t) with
    | error fault =>
      have ht' : takes (g.endingAt stop) (floor (f :: below)) (some t) = .error fault := ht
      rw [settle_of_error ht', settle_of_error ht]
    | ok r =>
      cases r with
      | some x =>
        have ht' : takes (g.endingAt stop) (floor (f :: below)) (some t) = .ok (some x) := ht
        rw [settle_of_takes ht', settle_of_takes ht]
      | none =>
        cases f with
        | right l op level =>
          have ht : takes g level (some t) = .ok none := ht
          have ht' : takes (g.endingAt stop) level (some t) = .ok none := ht
          rw [settle_right ht', settle_right ht]
          exact make_endingAt (ih _ _)
        | unary op level =>
          have ht : takes g level (some t) = .ok none := ht
          have ht' : takes (g.endingAt stop) level (some t) = .ok none := ht
          rw [settle_unary ht', settle_unary ht]
          exact make_endingAt (ih _ _)
        | group | arg =>
          rw [settle.eq_def, settle.eq_def g]
          rfl

/-- A step that has a token does not look where the tokens end. -/
theorem step_endingAt (t : Token) (after : Option Token) (mode : Mode) (c : Cursor) :
    step (g.endingAt stop) t after mode c = step g t after mode c := by
  cases mode with
  | want stack => rfl
  | called name stack => rfl
  | opened name stack => rfl
  | «have» stack e => exact settle_endingAt t stack e c

/-! ## In front of the cut -/

theorem of_make_eq_done {k : Cursor → Step} (h : make g c k = .done e c') :
    g.limits.check .nodes c.count.nodes = .ok () ∧ k c.count = .done e c' := by
  unfold make at h
  cases hc : g.limits.check .nodes c.count.nodes with
  | ok _ =>
    rw [hc] at h
    exact ⟨rfl, h⟩
  | error f =>
    rw [hc] at h
    exact absurd h (by simp)

/-- A node in front of the cut: what is done with it there is all that has to be looked at. -/
theorem make_cut {k k' : Cursor → Step} (h : make g c k = .done e c')
    (hk : k c.count = .done e c' → k' c.count = .done e c') :
    make (g.endingAt stop) c k' = .done e c' := by
  obtain ⟨hcheck, hdone⟩ := of_make_eq_done h
  have hcheck : (g.endingAt stop).limits.check .nodes c.count.nodes = .ok () := hcheck
  unfold make
  rw [hcheck]
  exact hk hdone

/-- An expression is finished only where no operator goes on with it. -/
theorem takes_of_settle_eq_done (h : settle g next stack e c = .done e' c') :
    takes g (floor stack) next = .ok none := by
  cases ht : takes g (floor stack) next with
  | error fault =>
    rw [settle_of_error ht] at h
    exact absurd h (by simp)
  | ok r =>
    cases r with
    | none => rfl
    | some x =>
      rw [settle_of_takes ht] at h
      exact absurd h (by simp)

theorem settle_group_ne_done : settle g next (.group :: below) e c ≠ .done e' c' := by
  intro h
  have ht : takes g Precedence.lowest next = .ok none := takes_of_settle_eq_done h
  cases next with
  | none => exact absurd h (by simp [settle_group_none])
  | some t =>
    rw [settle_group ht] at h
    by_cases hb : t.isClosing = true
    · rw [if_pos hb] at h
      exact absurd h (by simp)
    · rw [if_neg hb] at h
      exact absurd h (by simp)

theorem settle_arg_ne_done {n : Token} {before : List Expr} :
    settle g next (.arg n before :: below) e c ≠ .done e' c' := by
  intro h
  have ht : takes g Precedence.lowest next = .ok none := takes_of_settle_eq_done h
  cases hc : g.limits.check .arguments (before ++ [e]).length (some n.position) g.source with
  | error f => exact absurd h (by simp [settle_arg_of_error ht hc])
  | ok _ =>
    cases next with
    | none => exact absurd h (by simp [settle_arg_none hc])
    | some t =>
      rw [settle_arg ht hc] at h
      by_cases hb : t.isClosing = true
      · rw [if_pos hb] at h
        exact absurd (of_make_eq_done h).2 (by simp)
      · rw [if_neg hb] at h
        by_cases hk : t.kind = .comma
        · rw [if_pos hk] at h
          exact absurd h (by simp)
        · rw [if_neg hk] at h
          exact absurd h (by simp)

/-- What is finished in front of a token is finished at the end of the tokens. -/
theorem settle_cut (h : settle g next stack e c = .done e' c') :
    settle (g.endingAt stop) none stack e c = .done e' c' := by
  have hnone : ∀ level, takes (g.endingAt stop) level none = .ok none := fun _ => rfl
  have ht := takes_of_settle_eq_done h
  induction stack generalizing e c with
  | nil =>
    rw [settle_nil ht] at h
    rw [settle_nil (hnone _), h]
  | cons f below ih =>
    cases f with
    | right l op level =>
      have ht : takes g level next = .ok none := ht
      rw [settle_right ht] at h
      rw [settle_right (hnone _)]
      exact make_cut h fun hbelow => ih hbelow (takes_of_settle_eq_done hbelow)
    | unary op level =>
      have ht : takes g level next = .ok none := ht
      rw [settle_unary ht] at h
      rw [settle_unary (hnone _)]
      exact make_cut h fun hbelow => ih hbelow (takes_of_settle_eq_done hbelow)
    | group => exact absurd h settle_group_ne_done
    | arg n before => exact absurd h settle_arg_ne_done

/-- How an operand starts. Either the token is the operand, and then it is one at the end of the
tokens as well, or there is no operand yet. Whether an identifier is one hangs on the token after
it: at the end it is, as it is in front of a token that opens no call. -/
theorem startOperand_cases (g : Grammar) (t : Token) (after : Option Token) (stack : List Frame)
    (c : Cursor) :
    (∃ e, startOperand g t after stack c
          = make g c.enter.advance (fun c => .go (.have stack e) c)
        ∧ startOperand g t none stack c = startOperand g t after stack c)
      ∨ ∀ e c', startOperand g t after stack c ≠ .done e c'
        ∧ ∀ below, startOperand g t after stack c ≠ .go (.have below e) c' := by
  unfold startOperand
  by_cases hm : mayEnter g c = true
  · rw [hm]
    simp only [Bool.not_true, Bool.false_eq_true, if_false]
    cases hu : unaryLevel? g t with
    | some level => exact Or.inr (by simp)
    | none =>
      by_cases ho : t.isOpening = true
      · exact Or.inr (by simp [ho])
      · simp only [ho, Bool.false_eq_true, if_false]
        cases hk : t.kind with
        | identifier =>
          by_cases ha : after.any Token.isOpening = true
          · exact Or.inr (by simp [ha])
          · simp only [ha, Bool.false_eq_true, if_false]
            exact Or.inl ⟨_, rfl, rfl⟩
        | constant => exact Or.inl ⟨_, rfl, rfl⟩
        | parenthesis | operator | comma => exact Or.inr (by simp)
  · exact Or.inr (by simp [hm])

theorem startOperand_ne_done : startOperand g t after stack c ≠ .done e c' := by
  intro h
  obtain ⟨operand, hmake, -⟩ | hnot := startOperand_cases g t after stack c
  · rw [hmake] at h
    exact absurd (of_make_eq_done h).2 (by simp)
  · exact (hnot e c').1 h

/-- Only behind an operand is an expression finished. -/
theorem of_step_eq_done (h : step g t after mode c = .done e c') :
    ∃ stack operand, mode = .have stack operand
      ∧ settle g (some t) stack operand c = .done e c' := by
  cases mode with
  | want stack => exact absurd h startOperand_ne_done
  | called name stack => exact absurd h (by simp [step])
  | opened name stack =>
    rw [step] at h
    by_cases hb : t.isClosing = true
    · rw [if_pos hb] at h
      exact absurd (of_make_eq_done h).2 (by simp)
    · rw [if_neg hb] at h
      exact absurd h startOperand_ne_done
  | «have» stack operand => exact ⟨stack, operand, rfl, h⟩

theorem startOperand_cut (h : startOperand g t after stack c = .go (.have below e) c') :
    startOperand g t none stack c = .go (.have below e) c' := by
  obtain ⟨-, -, hnone⟩ | hnot := startOperand_cases g t after stack c
  · rw [hnone]
    exact h
  · exact absurd h ((hnot e c').2 below)

theorem step_cut (h : step g t after mode c = .go (.have stack e) c') :
    step g t none mode c = .go (.have stack e) c' := by
  cases mode with
  | want stack => exact startOperand_cut h
  | called name stack => exact h
  | opened name stack =>
    rw [step] at h ⊢
    by_cases hb : t.isClosing = true
    · rw [if_pos hb] at h ⊢
      exact h
    · rw [if_neg hb] at h ⊢
      exact startOperand_cut h
  | «have» stack operand => exact h

/-- At the end of the tokens an expression is finished behind an operand. -/
theorem of_finish_eq_done (h : finish g mode c = .done e c') :
    ∃ stack operand, mode = .have stack operand := by
  cases mode with
  | want | called | opened => exact absurd h (by simp [finish])
  | «have» stack operand => exact ⟨stack, operand, rfl⟩

/-- A run that finishes an expression finishes it with the tokens alone that it has consumed. -/
theorem run_take {read ts : List Token} (h : Reads g.precedence mode read ts.head?)
    (hrun : run g ts mode c = .done e c') (stop : Int) :
    ∃ n, n ≤ ts.length ∧ c'.index = c.index + n
      ∧ run (g.endingAt stop) (ts.take n) mode c = .done e c' := by
  induction ts generalizing read mode c with
  | nil =>
    rw [run] at hrun
    have hblames := blames_finish (g := g) mode c
    rw [hrun] at hblames
    obtain ⟨stack, operand, rfl⟩ := of_finish_eq_done hrun
    exact ⟨0, Nat.le_refl 0, hblames, settle_cut hrun⟩
  | cons t ts ih =>
    have hkeep : (step g t ts.head? mode c).Keeps g read (some t) ts.head? c.index :=
      keeps_step h c
    rw [run] at hrun
    cases hstep : step g t ts.head? mode c with
    | go mode₁ c₁ =>
      rw [hstep] at hkeep hrun
      obtain ⟨hindex, u, hu, hreads⟩ := hkeep
      obtain ⟨n, hle, hcount, htake⟩ := ih hreads hrun
      refine ⟨n + 1, Nat.succ_le_succ hle, by omega, ?_⟩
      have hcut : step g t (ts.take n).head? mode c = .go mode₁ c₁ := by
        cases n with
        | zero =>
          -- the expression ends with `t`, so that an operand stands behind it
          obtain ⟨stack, operand, rfl⟩ := of_finish_eq_done htake
          exact step_cut hstep
        | succ n =>
          have hhead : (ts.take (n + 1)).head? = ts.head? := by
            cases ts with
            | nil => rfl
            | cons v ts => rfl
          rw [hhead]
          exact hstep
      rw [List.take_succ_cons, run_go ((step_endingAt ..).trans hcut)]
      exact htake
    | done e₁ c₁ =>
      rw [hstep] at hkeep hrun
      obtain ⟨rfl, rfl⟩ := Step.done.inj hrun
      obtain ⟨stack, operand, rfl, hsettle⟩ := of_step_eq_done hstep
      exact ⟨0, Nat.zero_le _, hkeep.1, settle_cut hsettle⟩
    | fail f c₁ =>
      rw [hstep] at hrun
      exact absurd hrun (by simp)
    | refused f c₁ =>
      rw [hstep] at hrun
      exact absurd hrun (by simp)

/-- The token behind a finished expression does not go on with it. -/
theorem takes_behind {ts : List Token} (hrun : run g ts (.want []) {} = .done e c) :
    takes g Precedence.lowest ts[c.index]? = .ok none := by
  obtain ⟨f, rest, -, -, hts, hlen, ht, -⟩ := of_run_eq_done (.want .start) hrun
  rw [List.nil_append] at hts
  have hindex : c.index = f.tokens.length := by
    have hlength := congrArg List.length hts
    rw [List.length_append] at hlength
    have hlen : c.index + rest.length = 0 + ts.length := hlen
    omega
  rw [hts, hindex, List.getElem?_append_right (Nat.le_refl _), Nat.sub_self,
    ← List.head?_eq_getElem?]
  exact ht

/-- Tokens that go on behind a finished expression are rejected there. -/
theorem parse_of_done_of_next {p : Precedence} {limits : Limits} {source : Option String}
    {ts : List Token} (hrun : run (grammarFor p limits source ts) ts (.want []) {} = .done e c)
    (ht : ts[c.index]? = some t) : (parse p limits source ts).1
      = .error (.error { problem := .grammar (.expectedEnd t.text), position := some t.position,
                         expression := source }) := by
  have hhead : (ts.drop (c.index - 0)).head? = some t := by
    rw [Nat.sub_zero, List.head?_drop, ht]
  unfold parse
  simp only [expression_of_done hrun, checkTrailing, hhead]
  rfl

end Parser

/-! ## Readers -/

namespace Reader

variable {ts : List Token} {levels : Precedence.Source} {source : Option String} {limits : Limits}
  {r r' : Reader} {tree : Expr}

theorem ofTokens_eq {p : Precedence} (hp : Precedence.ofSource levels = .ok p) (ts : List Token) :
    Expr.ofTokens (some ts) levels source limits = (Parser.parse p limits source ts).1 := by
  unfold Expr.ofTokens create
  rw [hp]
  rfl

/-- A new reader that reads the expression at the start of tokens and comes to a stop in front of
token `k` has read at least one token. The `k` tokens by themselves are an expression with the same
tree. Token `k` is no operator that would go on with it. With a check that nothing follows, the
tokens as a whole are the expression if there is no token `k`, and are rejected at it otherwise. -/
theorem parse_stable (hr : create (some ts) levels source limits = .ok r)
    (hlevels : r.precedence.Integral) (h : r.parse false = (.ok tree, r')) {k : Nat}
    (hk : k = r'.cursor.index) :
    1 ≤ k ∧ k ≤ ts.length
      ∧ Expr.ofTokens (some (ts.take k)) levels source limits = .ok tree
      ∧ (∀ t, ts[k]? = some t → ¬ (t.kind = .operator ∧ r.precedence.Tighter 0 t.text))
      ∧ (k = ts.length → Expr.ofTokens (some ts) levels source limits = .ok tree)
      ∧ ∀ t, ts[k]? = some t → Expr.ofTokens (some ts) levels source limits
          = .error (.error { problem := .grammar (.expectedEnd t.text), position := some t.position,
                             expression := source }) := by
  obtain ⟨p, hp, rfl⟩ := exists_of_map_eq_ok hr
  have hlevels : p.Integral := hlevels
  have hparse : Parser.expression (Parser.grammarFor p limits source ts) ts {}
      = (.ok tree, r'.cursor) := by
    obtain ⟨hresult, hreader⟩ := Prod.mk.inj h
    exact Prod.ext hresult (congrArg Reader.cursor hreader)
  have hrun : Parser.run (Parser.grammarFor p limits source ts) ts (.want []) {}
      = .done tree r'.cursor := by
    have hok : (Parser.expression (Parser.grammarFor p limits source ts) ts {}).1 = .ok tree := by
      rw [hparse]
    have hdone := Parser.run_of_expression_eq_ok hok
    rwa [hparse] at hdone
  obtain ⟨n, hle, hindex, htake⟩ :=
    Parser.run_take (.want .start) hrun (Parser.stopOf source (ts.take k))
  obtain rfl : n = k := by
    rw [hk, hindex]
    exact (Nat.zero_add n).symm
  have hwhole : (Parser.parse p limits source (ts.take n)).1 = .ok tree := by
    refine Parser.parse_of_done htake ?_
    rw [← hk, List.length_take, Nat.min_eq_left hle]
  rw [ofTokens_eq hp, ofTokens_eq hp]
  refine ⟨?_, hle, hwhole, ?_, ?_, ?_⟩
  · refine Nat.pos_of_ne_zero fun hzero => ?_
    rw [hzero, List.take_zero] at htake
    exact absurd htake (by simp [Parser.run, Parser.finish])
  · rintro t ht ⟨hkind, htighter⟩
    have hnext := Parser.takes_behind hrun
    rw [← hk, ht] at hnext
    exact Precedence.not_leaves_of_takes ((Precedence.takes_int_iff hlevels).2 htighter)
      (Parser.leaves_of_takes hkind hnext)
  · intro hend
    exact Parser.parse_of_done hrun (hk.symm.trans hend)
  · intro t ht
    exact Parser.parse_of_done_of_next hrun (hk ▸ ht)

/-- The tokens of `f(x) + 1 - 2`. -/
def differenceTokens : List Token :=
  [⟨.identifier, "f", 0⟩, ⟨.parenthesis, "(", 1⟩, ⟨.identifier, "x", 2⟩, ⟨.parenthesis, ")", 3⟩,
    ⟨.operator, "+", 5⟩, ⟨.constant, "1", 7⟩, ⟨.operator, "-", 9⟩, ⟨.constant, "2", 11⟩]

/-- Tables in which differences have a level that no whole expression goes on with. -/
def loweredDifferences : Precedence.Source :=
  .datum (.dict [("binary", .dict [("+", .int 1), ("-", .int (-1))])])

/-- A call is read by looking ahead twice, and the expression ends in front of an operator. -/
theorem parse_stable_difference :
    ∃ r r' tree, create (some differenceTokens) loweredDifferences none {} = .ok r
      ∧ r.precedence.Integral ∧ r.parse false = (.ok tree, r') ∧ 6 = r'.cursor.index
      ∧ tree = .binary "+" (.call "f" [.var "x" 2] 0) (.constant "1" 7) 5
      ∧ Expr.ofTokens (some (differenceTokens.take 6)) loweredDifferences none {} = .ok tree
      ∧ Expr.ofTokens (some differenceTokens) loweredDifferences none {}
        = .error (.error { problem := .grammar (.expectedEnd "-"), position := some 9,
                           expression := none }) := by
  obtain ⟨r, hr⟩ : ∃ r, create (some differenceTokens) loweredDifferences none {} = .ok r :=
    ⟨_, rfl⟩
  have hlevels : r.precedence.Integral := by
    have hdata : loweredDifferences.IsData := trivial
    obtain ⟨p, hp, rfl⟩ := exists_of_map_eq_ok hr
    exact Precedence.integral_read hdata hp
  obtain ⟨r', tree, hparse, hindex, htree⟩ : ∃ r' tree, r.parse false = (.ok tree, r')
      ∧ 6 = r'.cursor.index
      ∧ tree = .binary "+" (.call "f" [.var "x" 2] 0) (.constant "1" 7) 5 := by
    rw [← Except.ok.inj hr]
    exact ⟨_, _, rfl, rfl, rfl⟩
  obtain ⟨-, -, hwhole, -, -, hnext⟩ := parse_stable hr hlevels hparse hindex
  exact ⟨r, r', tree, hr, hlevels, hparse, hindex, htree, hwhole, hnext ⟨.operator, "-", 9⟩ rfl⟩

end Reader

end Reckon
