import Reckon.Proofs.Expr.Flat
/-
  Errors of grammar are reported as early as possible. What the parser has read can be completed: an
  operand where one is due, then a closing parenthesis for each group and call that is still open
  (`Reads.exists_rest`). And a token that is complained about is wrong whatever follows it, since a
  step that fails does not look further ahead (`step_after`), so that the run fails alike with
  anything behind that token (`of_final_run`). The main statement is `parse_earliest_error`: an
  error is either at the end of tokens that can be completed, or at a token where the tokens in
  front of it can be completed and no longer with the token itself.
-/
namespace Reckon

/-! ## Completions -/

/-- Arguments in front of an expression. -/
theorem Flat.expressions_of_before {p : Precedence} {before : List (Phrase × Token)}
    (h : ∀ x ∈ before, x.1.Whole p ∧ x.2.kind = .comma) {us : List Token}
    (hus : Expression p us) : Expressions p (Arguments.tokensBefore before ++ us) := by
  induction before with
  | nil => exact .last hus
  | cons x before ih =>
    obtain ⟨hwhole, hcomma⟩ := h x (List.mem_cons_self ..)
    have hrest := ih fun y hy => h y (List.mem_cons_of_mem _ hy)
    have hmore := Expressions.more (expression_of_grammatical x.1 hwhole.grammatical) hcomma hrest
    simpa [Arguments.tokensBefore] using hmore

namespace Parser

/-- A closing parenthesis. -/
def closer : Token := ⟨.parenthesis, ")", 0⟩

/-- The closing parentheses that frames wait for. -/
def closers : List Frame → List Token
  | [] => []
  | .right .. :: below => closers below
  | .unary .. :: below => closers below
  | .group :: below => closer :: closers below
  | .arg .. :: below => closer :: closers below

variable {p : Precedence} {stack : List Frame} {read : List Token} {mode : Mode}

/-- With an expression and closing parentheses behind them, pending frames are completed. -/
theorem Pending.completed (h : Pending p stack read) {us : List Token}
    (hus : Flat.Expression p us) : Flat.Expression p (read ++ (us ++ closers stack)) := by
  induction h generalizing us with
  | start => simpa [closers] using hus
  | right l op level below hl hopen hk hc hleaves ih =>
    have hop : p.IsBinary op := ⟨hk, level, Precedence.binaryLevel_of_continues hc⟩
    have hboth := (Flat.expression_of_grammatical l hl).append hop hus
    simpa [closers] using ih hboth
  | unary op level below hk hlevel ih =>
    have hop : p.IsUnary op := ⟨hk, level, hlevel⟩
    simpa [closers] using ih (hus.cons hop)
  | group a below ha ih =>
    have hgroup := Flat.expression_of_primary (.group ha hus (b := closer) rfl)
    simpa [closers] using ih hgroup
  | arg n a before below hn ha hbefore ih =>
    have hargs := Flat.expressions_of_before hbefore hus
    have hcall := Flat.expression_of_primary (.call hn ha hargs (b := closer) rfl)
    simpa [closers] using ih hcall

/-- What has been read can be completed. -/
theorem Reads.exists_rest {next : Option Token} (h : Reads p mode read next) :
    ∃ rest, Flat.Expression p (read ++ rest) := by
  cases h with
  | @want stack _ _ pending =>
    have hzero : Flat.Expression p [⟨.constant, "0", 0⟩] :=
      Flat.expression_of_primary (.constant rfl)
    exact ⟨_, pending.completed hzero⟩
  | @called stack _ _ n pending hk =>
    refine ⟨closers stack, ?_⟩
    rw [List.append_assoc]
    exact pending.completed (Flat.expression_of_primary (.name hk))
  | @opened stack _ _ n a pending hk ha =>
    refine ⟨closer :: closers stack, ?_⟩
    rw [List.append_assoc]
    exact pending.completed (Flat.expression_of_primary (.nullary hk ha (b := closer) rfl))
  | @operand stack _ _ e pending he =>
    refine ⟨closers stack, ?_⟩
    rw [List.append_assoc]
    exact pending.completed (Flat.expression_of_grammatical e he)

/-! ## Complaints -/

/-- The complaints about a token, or about the end of the tokens. -/
def complaints (g : Grammar) : Option Token → List Failure
  | some t => [at? g .unclosedGroup t, at? g .expectedCommaOrClosing t, at? g .unexpectedToken t]
  | none => [atEnd g .expectedExpression, atEnd g .expectedClosing]

/-- A step that stops does so in front of the next token, and what it complains about is this
token. Only the end of the tokens stops every step. -/
def Step.Blames (g : Grammar) (next : Option Token) (index : Nat) : Step → Prop
  | .go _ _ => next ≠ none
  | .done _ c => c.index = index
  | .fail f c => f.IsLimit ∨ (∃ fault, f = .fault fault) ∨ c.index = index ∧ f ∈ complaints g next
  | .refused f _ => f.IsLimit

/-- A step that stops, and not because of a limit. -/
def Step.Final : Step → Prop
  | .go _ _ => False
  | .done _ _ => True
  | .fail f _ => ¬ f.IsLimit
  | .refused f _ => ¬ f.IsLimit

variable {g : Grammar} {next after : Option Token} {t : Token} {c : Cursor} {index : Nat}

theorem blames_make {k : Cursor → Step} (h : (k c.count).Blames g next index) :
    (make g c k).Blames g next index := by
  unfold make
  cases hc : g.limits.check .nodes c.count.nodes with
  | ok _ => exact h
  | error f => exact Or.inl (isLimit_of_check hc)

theorem not_final_make {k : Cursor → Step} (h : ¬ (k c.count).Final) : ¬ (make g c k).Final := by
  unfold make
  cases hc : g.limits.check .nodes c.count.nodes with
  | ok _ => exact h
  | error f => exact fun hfinal => hfinal (isLimit_of_check hc)

theorem blames_of_mem {f : Failure} (h : f ∈ complaints g next) :
    (Step.fail f c).Blames g next c.index := Or.inr (Or.inr ⟨rfl, h⟩)

/-- An operator that goes on is a token. -/
theorem blames_settle_of_passes {e : Expr}
    (hnone : takes g (floor stack) next = .ok none →
      (settle g next stack e c).Blames g next c.index) :
    (settle g next stack e c).Blames g next c.index := by
  cases ht : takes g (floor stack) next with
  | error f =>
    rw [settle_of_error ht]
    exact Or.inr (Or.inl ⟨f, rfl⟩)
  | ok r =>
    cases r with
    | none => exact hnone ht
    | some x =>
      obtain ⟨t, level⟩ := x
      obtain ⟨rfl, -⟩ := of_takes_eq_some ht
      rw [settle_of_takes ht]
      exact Option.some_ne_none t

theorem blames_settle_arg {name : Token} {before : List Expr} {below : List Frame} {e : Expr}
    (ht : takes g Precedence.lowest next = .ok none) :
    (settle g next (.arg name before :: below) e c).Blames g next c.index := by
  cases hc : g.limits.check .arguments (before ++ [e]).length (some name.position) g.source with
  | error f =>
    rw [settle_arg_of_error ht hc]
    exact Or.inl (isLimit_of_check hc)
  | ok _ =>
    cases next with
    | none =>
      rw [settle_arg_none hc]
      exact blames_of_mem (List.mem_cons_of_mem _ (List.mem_cons_self ..))
    | some t =>
      rw [settle_arg ht hc]
      by_cases hb : t.isClosing = true
      · rw [if_pos hb]
        exact blames_make (Option.some_ne_none t)
      · rw [if_neg hb]
        by_cases hk : t.kind = .comma
        · rw [if_pos hk]
          exact Option.some_ne_none t
        · rw [if_neg hk]
          exact blames_of_mem (List.mem_cons_of_mem _ (List.mem_cons_self ..))

theorem blames_settle (e : Expr) (c : Cursor) :
    (settle g next stack e c).Blames g next c.index := by
  induction stack generalizing e c with
  | nil =>
    refine blames_settle_of_passes fun ht => ?_
    rw [settle_nil ht]
    rfl
  | cons f below ih =>
    refine blames_settle_of_passes fun ht => ?_
    cases f with
    | right l op level =>
      have ht : takes g level next = .ok none := ht
      rw [settle_right ht]
      exact blames_make (ih _ _)
    | unary op level =>
      have ht : takes g level next = .ok none := ht
      rw [settle_unary ht]
      exact blames_make (ih _ _)
    | group =>
      cases next with
      | none =>
        rw [settle_group_none]
        exact blames_of_mem (List.mem_cons_of_mem _ (List.mem_cons_self ..))
      | some t =>
        rw [settle_group ht]
        by_cases hb : t.isClosing = true
        · rw [if_pos hb]
          exact Option.some_ne_none t
        · rw [if_neg hb]
          exact blames_of_mem (List.mem_cons_self ..)
    | arg name before => exact blames_settle_arg ht

/-- What is not the first token of an operand is not, whatever is behind it. -/
theorem startOperand_after (after' : Option Token) :
    (startOperand g t after stack c).Blames g (some t) c.index
      ∧ ((startOperand g t after stack c).Final →
          startOperand g t after' stack c = startOperand g t after stack c) := by
  have hgo : some t ≠ none := Option.some_ne_none t
  have hfail : (Step.fail (at? g .unexpectedToken t) c.enter).Blames g (some t) c.index :=
    blames_of_mem (c := c.enter) (by simp [complaints])
  unfold startOperand
  by_cases hm : mayEnter g c = true
  · rw [hm]
    simp only [Bool.not_true, Bool.false_eq_true, if_false]
    cases hu : unaryLevel? g t with
    | some level => exact ⟨hgo, fun _ => rfl⟩
    | none =>
      by_cases ho : t.isOpening = true
      · simp only [ho, if_true]
        exact ⟨hgo, fun _ => trivial⟩
      · simp only [ho, Bool.false_eq_true, if_false]
        cases t.kind with
        | identifier =>
          by_cases ha : after.any Token.isOpening = true
          · simp only [ha, if_true]
            exact ⟨hgo, False.elim⟩
          · simp only [ha, Bool.false_eq_true, if_false]
            exact ⟨blames_make hgo, fun h => absurd h (not_final_make id)⟩
        | constant => exact ⟨blames_make hgo, fun _ => rfl⟩
        | parenthesis => exact ⟨hfail, fun _ => rfl⟩
        | operator => exact ⟨hfail, fun _ => rfl⟩
        | comma => exact ⟨hfail, fun _ => rfl⟩
  · rw [Bool.not_eq_true] at hm
    rw [hm]
    exact ⟨isLimit_tooDeep _, fun _ => rfl⟩

theorem blames_step (after : Option Token) (mode : Mode) (c : Cursor) :
    (step g t after mode c).Blames g (some t) c.index := by
  cases mode with
  | want stack => exact (startOperand_after after).1
  | called name stack => exact Option.some_ne_none t
  | opened name stack =>
    rw [step]
    by_cases hb : t.isClosing = true
    · rw [if_pos hb]
      exact blames_make (Option.some_ne_none t)
    · rw [if_neg hb]
      exact (startOperand_after after).1
  | «have» stack e => exact blames_settle e c

theorem blames_finish (mode : Mode) (c : Cursor) : (finish g mode c).Blames g none c.index := by
  cases mode with
  | want stack => exact blames_of_mem (List.mem_cons_self ..)
  | called name stack => exact blames_of_mem (List.mem_cons_of_mem _ (List.mem_cons_self ..))
  | opened name stack => exact blames_of_mem (List.mem_cons_of_mem _ (List.mem_cons_self ..))
  | «have» stack e => exact blames_settle e c

/-- A step that stops does not look further ahead than the next token. -/
theorem step_after (after' : Option Token) (h : (step g t after mode c).Final) :
    step g t after' mode c = step g t after mode c := by
  cases mode with
  | want stack => exact (startOperand_after after').2 h
  | called name stack => rfl
  | opened name stack =>
    rw [step] at h ⊢
    rw [step]
    by_cases hb : t.isClosing = true
    · rw [if_pos hb, if_pos hb]
    · rw [if_neg hb] at h ⊢
      rw [if_neg hb]
      exact (startOperand_after after').2 h
  | «have» stack e => rfl

/-! ## Where a run stops -/

theorem run_of_final {ts : List Token} (h : (step g t ts.head? mode c).Final) :
    run g (t :: ts) mode c = step g t ts.head? mode c := by
  rw [run]
  cases hstep : step g t ts.head? mode c with
  | go mode₁ c₁ =>
    rw [hstep] at h
    exact h.elim
  | done e c₁ => rfl
  | fail f c₁ => rfl
  | refused f c₁ => rfl

/-- A run whose first step does not go on stops there. -/
theorem final_of_run {ts : List Token} (hfinal : (run g (t :: ts) mode c).Final)
    (hgo : ∀ mode₁ c₁, step g t ts.head? mode c ≠ .go mode₁ c₁) :
    (step g t ts.head? mode c).Final := by
  rw [run] at hfinal
  cases hstep : step g t ts.head? mode c with
  | go mode₁ c₁ => exact absurd hstep (hgo mode₁ c₁)
  | done e c₁ => trivial
  | fail f c₁ =>
    rw [hstep] at hfinal
    exact hfinal
  | refused f c₁ =>
    rw [hstep] at hfinal
    exact hfinal

/-- A run stops with every token read, or in front of a token, and then it stops alike whatever
follows this token. -/
theorem of_final_run {ts : List Token} (h : Reads g.precedence mode read ts.head?)
    (hfinal : (run g ts mode c).Final) :
    (∃ mode' c', Reads g.precedence mode' (read ++ ts) none ∧ c'.index = c.index + ts.length
        ∧ run g ts mode c = finish g mode' c')
      ∨ ∃ pre t post mode' after c', ts = pre ++ t :: post
        ∧ Reads g.precedence mode' (read ++ pre) (some t) ∧ c'.index = c.index + pre.length
        ∧ run g ts mode c = step g t after mode' c'
        ∧ ∀ rest, run g (pre ++ t :: rest) mode c = run g ts mode c := by
  induction ts generalizing read mode c with
  | nil =>
    refine Or.inl ⟨mode, c, ?_, rfl, rfl⟩
    rw [List.append_nil]
    exact h
  | cons t ts ih =>
    have hkeep : (step g t ts.head? mode c).Keeps g read (some t) ts.head? c.index :=
      keeps_step h c
    by_cases hgo : ∃ mode₁ c₁, step g t ts.head? mode c = .go mode₁ c₁
    · obtain ⟨mode₁, c₁, hstep⟩ := hgo
      rw [hstep] at hkeep
      obtain ⟨hindex, t', ht', hreads⟩ := hkeep
      obtain rfl : t = t' := Option.some.inj ht'
      rw [run_go hstep] at hfinal ⊢
      obtain ⟨mode', c', hend, hcount, hrun⟩ | ⟨pre, u, post, mode', after, c', rfl, hread, hcount,
        hrun, hrest⟩ := ih hreads hfinal
      · rw [List.append_assoc] at hend
        refine Or.inl ⟨mode', c', hend, ?_, hrun⟩
        rw [hcount, hindex, List.length_cons]
        omega
      · rw [List.append_assoc] at hread
        refine Or.inr ⟨t :: pre, u, post, mode', after, c', rfl, hread, ?_, hrun, fun rest => ?_⟩
        · rw [hcount, hindex, List.length_cons]
          omega
        · -- the tokens up to `u` see the same next token
          have hhead : (pre ++ u :: rest).head? = (pre ++ u :: post).head? := by
            cases pre with
            | nil => rfl
            | cons v pre => rfl
          rw [List.cons_append, run_go (by rw [hhead]; exact hstep)]
          exact hrest rest
    · have hstop := final_of_run hfinal fun mode₁ c₁ heq => hgo ⟨mode₁, c₁, heq⟩
      have hrun := run_of_final hstop
      have hread : Reads g.precedence mode (read ++ []) (some t) := by
        rw [List.append_nil]
        exact h
      refine Or.inr ⟨[], t, ts, mode, ts.head?, c, rfl, hread, rfl, hrun, fun rest => ?_⟩
      have hsame := step_after rest.head? hstop
      rw [List.nil_append, hrun, run_of_final (by rw [hsame]; exact hstop), hsame]

/-- A run that reports no limit stops. -/
theorem final_run {ts : List Token} (h : ¬ (run g ts mode c).IsLimit) :
    (run g ts mode c).Final := by
  induction ts generalizing mode c with
  | nil =>
    have hblames := blames_finish (g := g) mode c
    rw [run] at h ⊢
    cases hs : finish g mode c with
    | go mode' c' =>
      rw [hs] at hblames
      exact absurd rfl hblames
    | done e c' => trivial
    | fail f c' =>
      rw [hs] at h
      exact h
    | refused f c' =>
      rw [hs] at h
      exact h
  | cons t ts ih =>
    rw [run] at h ⊢
    cases hs : step g t ts.head? mode c with
    | go mode' c' =>
      rw [hs] at h
      exact ih h
    | done e c' => trivial
    | fail f c' =>
      rw [hs] at h
      exact h
    | refused f c' =>
      rw [hs] at h
      exact h

/-! ## Errors -/

/-- Tokens that are accepted, within some limits. -/
def Accepted (p : Precedence) (ts : List Token) : Prop :=
  ∃ l source e, (parse p l source ts).1 = .ok e

theorem accepted_iff (hp : p.Integral) (hr : p.Raised) {ts : List Token} :
    Accepted p ts ↔ Flat.Expression p ts := by
  rw [Flat.expression_iff hp hr]
  constructor
  · rintro ⟨l, source, e, he⟩
    obtain ⟨f, hf, hts, -⟩ := of_parse_eq_ok he
    exact ⟨f, hts, hf⟩
  · rintro ⟨f, rfl, hf⟩
    have hfit : Fits (({} : Limits).raise f.tokens.length) {} f :=
      fits_of_roomy (Limits.roomy_raise _ _)
    exact ⟨_, none, f.expr, parse_of_fits hf hfit⟩

variable {l : Limits} {source : Option String} {ts : List Token} {f : Failure}

/-- A failure is that of the run, or it is about a token behind a finished expression. -/
theorem of_parse_eq_error (hl : ¬ Exceeds p l source ts) (h : (parse p l source ts).1 = .error f) :
    (run (grammarFor p l source ts) ts (.want []) {}).Final
      ∧ ((∃ c, (run (grammarFor p l source ts) ts (.want []) {} = .fail f c
              ∨ run (grammarFor p l source ts) ts (.want []) {} = .refused f c)
            ∧ (parse p l source ts).2.index = c.index)
        ∨ ∃ e c t, run (grammarFor p l source ts) ts (.want []) {} = .done e c
            ∧ (ts.drop c.index).head? = some t ∧ f = at? (grammarFor p l source ts) .expectedEnd t
            ∧ (parse p l source ts).2.index = c.index) := by
  have hlimit : ¬ f.IsLimit := fun hf => hl ⟨f, h, hf⟩
  have hfinal : (run (grammarFor p l source ts) ts (.want []) {}).Final :=
    final_run fun hrun => hl (exceeds_of_isLimit hrun)
  refine ⟨hfinal, ?_⟩
  unfold parse expression at h ⊢
  by_cases hempty : (ts.isEmpty && !mayEnter (grammarFor p l source ts) {}) = true
  · simp only [hempty, if_true] at h
    obtain rfl := Except.error.inj h
    exact absurd (isLimit_tooDeep _) hlimit
  · simp only [hempty, Bool.false_eq_true, if_false] at h ⊢
    cases hrun : run (grammarFor p l source ts) ts (.want []) {} with
    | go mode c =>
      rw [hrun] at hfinal
      exact hfinal.elim
    | done e c =>
      rw [hrun] at h
      unfold checkTrailing at h ⊢
      simp only [Nat.sub_zero] at h ⊢
      cases ht : (ts.drop c.index).head? with
      | none =>
        rw [ht] at h
        exact absurd h (by simp)
      | some t =>
        rw [ht] at h
        exact Or.inr ⟨e, c, t, rfl, ht, (Except.error.inj h).symm, rfl⟩
    | fail f' c =>
      rw [hrun] at h
      obtain rfl : f' = f := Except.error.inj h
      exact Or.inl ⟨c, Or.inl rfl, rfl⟩
    | refused f' c =>
      rw [hrun] at h
      obtain rfl : f' = f := Except.error.inj h
      exact Or.inl ⟨c, Or.inr rfl, rfl⟩

/-- Tokens that a run stops in front of cannot be gone on with. -/
theorem not_expression_of_final {pre rest : List Token} {s : Step} (hp : p.Integral)
    (hr : p.Raised) (hg : g.precedence = p)
    (hrun : run g (pre ++ t :: rest) (.want []) {} = s) (hfinal : s.Final)
    (hblames : s.Blames g (some t) pre.length) : ¬ Flat.Expression p (pre ++ t :: rest) := by
  subst hg
  intro hexpr
  obtain ⟨f, hts, hf⟩ := (Flat.expression_iff hp hr).1 hexpr
  have hroomy : (g.limits.raise f.tokens.length).Roomy f.tokens.length := Limits.roomy_raise _ _
  have hdone : run (g.within (g.limits.raise f.tokens.length)) f.tokens (.want []) {}
      = .done f.expr (Cursor.past {} f).leave := run_of_fits hf (fits_of_roomy hroomy)
  have hwithin : g.limits.Within (g.limits.raise f.tokens.length) := Limits.within_raise _ _
  rw [← hts] at hrun
  rcases run_within hwithin f.tokens (.want []) {} with hsame | hlimit
  · rw [hrun, hdone] at hsame
    rw [hsame] at hblames
    have hindex : (Cursor.past {} f).leave.index = f.tokens.length := Nat.zero_add _
    have hcount : pre.length = f.tokens.length := hblames.symm.trans hindex
    rw [hts, List.length_append, List.length_cons] at hcount
    omega
  · rw [hrun] at hlimit
    cases s with
    | go mode c => exact hfinal
    | done e c => exact hlimit
    | fail f c => exact hfinal hlimit
    | refused f c => exact hfinal hlimit

/-- A failure that is no limit and no fault is one of the complaints. -/
theorem mem_complaints {s : Step} (hs : s = .fail f c ∨ s = .refused f c) (hfinal : s.Final)
    (hblames : s.Blames g next index) (hf : f.IsComplaint source) :
    c.index = index ∧ f ∈ complaints g next := by
  rcases hs with rfl | rfl
  · rcases hblames with hlimit | ⟨fault, rfl⟩ | hmem
    · exact absurd hlimit hfinal
    · obtain ⟨problem, position, heq⟩ := hf
      exact absurd heq (by simp)
    · exact hmem
  · exact absurd hblames hfinal

theorem of_mem_complaints_end (h : f ∈ complaints g none) :
    ∃ problem, (problem = .expectedExpression ∨ problem = .expectedClosing)
      ∧ f = atEnd g problem := by
  rcases List.mem_cons.1 h with rfl | h
  · exact ⟨_, Or.inl rfl, rfl⟩
  · obtain rfl := List.mem_singleton.1 h
    exact ⟨_, Or.inr rfl, rfl⟩

theorem of_mem_complaints_token {t : Token} (h : f ∈ complaints g (some t)) :
    ∃ problem ∈ [GrammarProblem.expectedEnd, .unclosedGroup, .expectedCommaOrClosing,
      .unexpectedToken], f = at? g problem t := by
  rcases List.mem_cons.1 h with rfl | h
  · exact ⟨_, by simp, rfl⟩
  rcases List.mem_cons.1 h with rfl | h
  · exact ⟨_, by simp, rfl⟩
  · obtain rfl := List.mem_singleton.1 h
    exact ⟨_, by simp, rfl⟩

/-- Tokens that a run has read can be gone on with. -/
theorem Reads.viable {mode : Mode} {pre : List Token} {next : Option Token} (hp : p.Integral)
    (hr : p.Raised) (h : Reads p mode pre next) : ∃ rest, Accepted p (pre ++ rest) := by
  obtain ⟨rest, hexpr⟩ := h.exists_rest
  exact ⟨rest, (accepted_iff hp hr).2 hexpr⟩

/-- Where the end of the tokens is. -/
theorem stopOf_cases (source : Option String) (ts : List Token) :
    (∀ text, source = some text → stopOf source ts = text.toList.length)
      ∧ (source = none → ∀ t, ts.getLast? = some t → stopOf source ts = t.stop)
      ∧ (source = none → ts = [] → stopOf source ts = 0) := by
  refine ⟨?_, ?_, ?_⟩
  · rintro text rfl
    rfl
  · rintro rfl t ht
    rw [stopOf, ht]
  · rintro rfl rfl
    rfl

/-- For every table of whole numbers where operators between two operands have levels above zero or
group to the right: unless a limit is exceeded, an error is about the end of the tokens, which can
be gone on with, or about the first token that the tokens in front of it cannot be gone on with. -/
theorem parse_earliest_error (hp : p.Integral) (hr : p.Raised) (hl : ¬ Exceeds p l source ts)
    (h : (parse p l source ts).1 = .error f) :
    (∃ problem stop, (problem = .expectedExpression ∨ problem = .expectedClosing)
        ∧ f = .error { problem := .grammar problem, position := some stop, expression := source }
        ∧ ((∀ text, source = some text → stop = text.toList.length)
          ∧ (source = none → ∀ t, ts.getLast? = some t → stop = t.stop)
          ∧ (source = none → ts = [] → stop = 0))
        ∧ ∃ rest, rest ≠ [] ∧ Accepted p (ts ++ rest))
      ∨ ∃ pre t post problem, ts = pre ++ t :: post ∧ (parse p l source ts).2.index = pre.length
        ∧ problem ∈ [GrammarProblem.expectedEnd, .unclosedGroup, .expectedCommaOrClosing,
            .unexpectedToken]
        ∧ f = .error { problem := .grammar (problem t.text), position := some t.position,
                       expression := source }
        ∧ (∃ rest, Accepted p (pre ++ rest)) ∧ ∀ rest, ¬ Accepted p (pre ++ t :: rest) := by
  have hcomplaint := isComplaint_of_parse hp hl h
  obtain ⟨hfinal, hrun⟩ := of_parse_eq_error hl h
  have hstart : Reads p (.want []) [] ts.head? := .want .start
  rcases of_final_run (g := grammarFor p l source ts) hstart hfinal with
    ⟨mode, c, hread, hindex, hend⟩
      | ⟨pre, t, post, mode, after, c, hts, hread, hindex, hstep, hrest⟩
  · left
    have hblames := blames_finish (g := grammarFor p l source ts) mode c
    rw [← hend] at hblames
    obtain ⟨c', hfail, -⟩ | ⟨e, c', t, hdone, htrailing, -⟩ := hrun
    · obtain ⟨-, hmem⟩ := mem_complaints hfail hfinal hblames hcomplaint
      obtain ⟨problem, hproblem, rfl⟩ := of_mem_complaints_end hmem
      obtain ⟨rest, haccepted⟩ := hread.viable hp hr
      have hrest : rest ≠ [] := by
        rintro rfl
        rw [List.append_nil] at haccepted
        obtain ⟨e, he⟩ := (accepts_iff_expression hp hr hl).2 ((accepted_iff hp hr).1 haccepted)
        exact absurd (h.symm.trans he) (by simp)
      exact ⟨problem, _, hproblem, rfl, stopOf_cases source ts, rest, hrest, haccepted⟩
    · -- all tokens are read, so none is left behind a finished expression
      rw [hdone] at hblames
      have hcount : c'.index = 0 + ts.length := hblames.trans hindex
      rw [hcount, Nat.zero_add, List.drop_length] at htrailing
      exact absurd htrailing (by simp)
  · right
    have hcount : c.index = pre.length := hindex.trans (Nat.zero_add _)
    have hblames := blames_step (g := grammarFor p l source ts) (t := t) after mode c
    rw [← hstep, hcount] at hblames
    have hdead : ∀ rest, ¬ Accepted p (pre ++ t :: rest) := by
      intro rest haccepted
      exact not_expression_of_final hp hr rfl (hrest rest) hfinal hblames
        ((accepted_iff hp hr).1 haccepted)
    obtain ⟨c', hfail, hplace⟩ | ⟨e, c', t', hdone, htrailing, rfl, hplace⟩ := hrun
    · obtain ⟨hc', hmem⟩ := mem_complaints hfail hfinal hblames hcomplaint
      obtain ⟨problem, hproblem, rfl⟩ := of_mem_complaints_token hmem
      exact ⟨pre, t, post, problem, hts, hplace.trans hc', hproblem, rfl, hread.viable hp hr,
        hdead⟩
    · rw [hdone] at hblames
      have hc' : c'.index = pre.length := hblames
      rw [hc', hts, List.drop_left] at htrailing
      obtain rfl : t = t' := Option.some.inj htrailing
      exact ⟨pre, t, post, .expectedEnd, hts, hplace.trans hc', by simp, rfl, hread.viable hp hr,
        hdead⟩

end Parser

/-- The tokens of `f(a b`: a call may go on behind `a`, but not with `b`. -/
theorem Parser.parse_earliest_error_call :
    let pre : List Token := [⟨.identifier, "f", 0⟩, ⟨.parenthesis, "(", 1⟩, ⟨.identifier, "a", 2⟩]
    let b : Token := ⟨.identifier, "b", 4⟩
    Precedence.mixed.Integral ∧ Precedence.mixed.Raised
      ∧ ¬ Exceeds Precedence.mixed {} (some "f(a b") (pre ++ [b])
      ∧ (parse Precedence.mixed {} (some "f(a b") (pre ++ [b])).1
        = .error (.error { problem := .grammar (.expectedCommaOrClosing "b"), position := some 4,
                           expression := some "f(a b" })
      ∧ (∃ rest, Accepted Precedence.mixed (pre ++ rest))
      ∧ ∀ rest, ¬ Accepted Precedence.mixed (pre ++ b :: rest) := by
  intro pre b
  have hl : ¬ Exceeds Precedence.mixed {} (some "f(a b") (pre ++ [b]) :=
    not_exceeds_of_roomy ⟨by decide, by decide, by decide⟩
  have h : parse Precedence.mixed {} (some "f(a b") (pre ++ [b])
      = (.error (.error { problem := .grammar (.expectedCommaOrClosing "b"), position := some 4,
                          expression := some "f(a b" }), ⟨3, 0, 1⟩) := rfl
  refine ⟨Precedence.integral_mixed, Precedence.raised_mixed, hl, by rw [h], ?_⟩
  obtain ⟨problem, stop, hproblem, heq, -⟩ | ⟨pre', t, post, problem, hts, hindex, -, -, hviable,
    hdead⟩ := parse_earliest_error Precedence.integral_mixed Precedence.raised_mixed hl (by rw [h])
  · rcases hproblem with rfl | rfl
    · exact absurd heq (by simp)
    · exact absurd heq (by simp)
  · rw [h] at hindex
    have hsplit := List.append_inj hts hindex
    obtain ⟨rfl, hcons⟩ := hsplit
    obtain ⟨rfl, -⟩ := List.cons.inj hcons
    exact ⟨hviable, hdead⟩
end Reckon
