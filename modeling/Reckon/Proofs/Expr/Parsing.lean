import Reckon.Proofs.Expr.Limits
/-
  The parser on whole token lists. What it accepts is a whole grammatical phrase
  (`of_parse_eq_ok`); a whole grammatical phrase it either accepts, with the tree of the phrase, or
  finds too large (`parse_of_whole`).

  Limits that are at least as large as the number of tokens are roomy: every frame, node and
  argument is paid for with a token (`Mode.Paid`), so they are never reached
  (`not_exceeds_of_roomy`).
-/
namespace Reckon

/-! ## Phrases are paid for with their tokens -/

mutual
theorem Phrase.nesting_lt (e : Phrase) : e.nesting < e.tokens.length := by
  match e with
  | .constant t => exact Nat.zero_lt_one
  | .name t => exact Nat.zero_lt_one
  | .unary op e =>
    have := Phrase.nesting_lt e
    simp only [Phrase.nesting, Phrase.tokens, List.length_cons]; omega
  | .binary l op r =>
    have := Phrase.nesting_lt l
    have := Phrase.nesting_lt r
    simp only [Phrase.nesting, Phrase.tokens, List.length_append, List.length_cons]; omega
  | .group a e b =>
    have := Phrase.nesting_lt e
    simp only [Phrase.nesting, Phrase.tokens, List.length_append, List.length_cons,
      List.length_nil]
    omega
  | .nullary n a b => exact Nat.zero_lt_succ 2
  | .call n a args =>
    have := Arguments.nesting_le args
    simp only [Phrase.nesting, Phrase.tokens, List.length_cons]; omega

theorem Arguments.nesting_le (args : Arguments) : args.nesting ≤ args.tokens.length := by
  match args with
  | .last e b =>
    have := Phrase.nesting_lt e
    simp only [Arguments.nesting, Arguments.tokens, List.length_append, List.length_cons,
      List.length_nil]
    omega
  | .more e comma others =>
    have := Phrase.nesting_lt e
    have := Arguments.nesting_le others
    simp only [Arguments.nesting, Arguments.tokens, List.length_append, List.length_cons]; omega
end

mutual
theorem Phrase.size_expr_le (e : Phrase) : e.expr.size ≤ e.tokens.length := by
  match e with
  | .constant t => exact Nat.le_refl 1
  | .name t => exact Nat.le_refl 1
  | .unary op e =>
    have := Phrase.size_expr_le e
    simp only [Phrase.expr, Expr.size, Phrase.tokens, List.length_cons]; omega
  | .binary l op r =>
    have := Phrase.size_expr_le l
    have := Phrase.size_expr_le r
    simp only [Phrase.expr, Expr.size, Phrase.tokens, List.length_append, List.length_cons]; omega
  | .group a e b =>
    have := Phrase.size_expr_le e
    simp only [Phrase.expr, Phrase.tokens, List.length_append, List.length_cons, List.length_nil]
    omega
  | .nullary n a b => exact Nat.succ_le_succ (Nat.zero_le 2)
  | .call n a args =>
    have := Arguments.sizeAll_exprs_lt args
    simp only [Phrase.expr, Expr.size, Phrase.tokens, List.length_cons]; omega

theorem Arguments.sizeAll_exprs_lt (args : Arguments) :
    Expr.sizeAll args.exprs < args.tokens.length := by
  match args with
  | .last e b =>
    have := Phrase.size_expr_le e
    simp only [Arguments.exprs, Expr.sizeAll, Arguments.tokens, List.length_append,
      List.length_cons, List.length_nil]
    omega
  | .more e comma others =>
    have := Phrase.size_expr_le e
    have := Arguments.sizeAll_exprs_lt others
    simp only [Arguments.exprs, Expr.sizeAll, Arguments.tokens, List.length_append,
      List.length_cons]
    omega
end

theorem Arguments.length_le (args : Arguments) : args.length ≤ args.tokens.length := by
  match args with
  | .last e b => simp [Arguments.length, Arguments.tokens]
  | .more e comma others =>
    have := Arguments.length_le others
    simp only [Arguments.length, Arguments.tokens, List.length_append, List.length_cons]; omega

mutual
theorem Phrase.arities_le (e : Phrase) : ∀ n ∈ e.arities, n ≤ e.tokens.length := by
  intro n hn
  match e with
  | .constant t => exact absurd hn (by simp [Phrase.arities])
  | .name t => exact absurd hn (by simp [Phrase.arities])
  | .unary op e =>
    have := Phrase.arities_le e n hn
    simp only [Phrase.tokens, List.length_cons]; omega
  | .binary l op r =>
    simp only [Phrase.tokens, List.length_append, List.length_cons]
    rcases List.mem_append.1 hn with hn | hn
    · have := Phrase.arities_le l n hn
      omega
    · have := Phrase.arities_le r n hn
      omega
  | .group a e b =>
    have := Phrase.arities_le e n hn
    simp only [Phrase.tokens, List.length_append, List.length_cons, List.length_nil]; omega
  | .nullary _ _ _ => exact absurd hn (by simp [Phrase.arities])
  | .call _ _ args =>
    simp only [Phrase.tokens, List.length_cons]
    rcases List.mem_cons.1 hn with rfl | hn
    · have := Arguments.length_le args
      omega
    · have := Arguments.arities_le args n hn
      omega

theorem Arguments.arities_le (args : Arguments) : ∀ n ∈ args.arities, n ≤ args.tokens.length := by
  intro n hn
  match args with
  | .last e b =>
    have := Phrase.arities_le e n hn
    simp only [Arguments.tokens, List.length_append]; omega
  | .more e comma others =>
    simp only [Arguments.tokens, List.length_append, List.length_cons]
    rcases List.mem_append.1 hn with hn | hn
    · have := Phrase.arities_le e n hn
      omega
    · have := Arguments.arities_le others n hn
      omega
end

/-- Limits that `n` tokens cannot reach. -/
structure Limits.Roomy (l : Limits) (n : Nat) : Prop where
  nestingDepth : (n : Int) ≤ l.nestingDepth
  nodes : (n : Int) ≤ l.nodes
  arguments : (n : Int) ≤ l.arguments

/-- The limits of the parser, raised to `n` where they are lower. -/
def Limits.raise (l : Limits) (n : Nat) : Limits :=
  { l with
    nestingDepth := max l.nestingDepth n
    nodes := max l.nodes n
    arguments := max l.arguments n }

theorem Limits.within_raise (l : Limits) (n : Nat) : l.Within (l.raise n) :=
  ⟨Int.le_max_left .., Int.le_max_left .., Int.le_max_left ..⟩

theorem Limits.roomy_raise (l : Limits) (n : Nat) : (l.raise n).Roomy n :=
  ⟨Int.le_max_right .., Int.le_max_right .., Int.le_max_right ..⟩

namespace Parser

theorem fits_of_roomy {l : Limits} {e : Phrase} (h : l.Roomy e.tokens.length) : Fits l {} e := by
  obtain ⟨hd, hn, ha⟩ := h
  refine ⟨?_, ?_, fun n hm => ?_⟩
  · have := e.nesting_lt
    simp only; omega
  · have := e.size_expr_le
    simp only; omega
  · have := e.arities_le n hm
    omega

/-! ## Whole token lists -/

variable {p : Precedence} {l : Limits} {source : Option String} {ts : List Token} {g : Grammar}

/-- A run that comes to an end is the answer. -/
theorem expression_of_done {c c' : Cursor} {e : Expr} (h : run g ts (.want []) c = .done e c') :
    expression g ts c = (.ok e, c') := by
  cases ts with
  | nil => exact absurd h (by simp [run, finish])
  | cons t ts =>
    unfold expression
    simp [h]

/-- An answer comes from a run that comes to an end. -/
theorem run_of_expression_eq_ok {c : Cursor} {e : Expr} (h : (expression g ts c).1 = .ok e) :
    run g ts (.want []) c = .done e (expression g ts c).2 := by
  cases ts with
  | nil =>
    unfold expression at h
    by_cases hm : mayEnter g c = true
    · simp [hm, run, finish] at h
    · simp [hm] at h
  | cons t ts =>
    unfold expression at h ⊢
    simp only [List.isEmpty_cons, Bool.false_and, Bool.false_eq_true, if_false] at h ⊢
    cases hs : run g (t :: ts) (.want []) c with
    | done e' c' =>
      rw [hs] at h
      simp only [Except.ok.injEq] at h
      simp [h]
    | go mode c' => rw [hs] at h; exact absurd h (by simp)
    | fail f c' => rw [hs] at h; exact absurd h (by simp)
    | refused f c' => rw [hs] at h; exact absurd h (by simp)

/-- What is accepted is a whole grammatical phrase, and the answer is its tree. -/
theorem of_parse_eq_ok {e : Expr} (h : (parse p l source ts).1 = .ok e) :
    ∃ f : Phrase, f.Whole p ∧ f.tokens = ts ∧ f.expr = e := by
  unfold parse at h
  cases ho : expression (grammarFor p l source ts) ts {} with
  | mk result c =>
    simp only [ho] at h
    cases result with
    | error f => exact absurd h (by simp [checkTrailing])
    | ok e' =>
      have hrun : run (grammarFor p l source ts) ts (.want []) {} = .done e' c := by
        have hok : (expression (grammarFor p l source ts) ts {}).1 = .ok e' := by rw [ho]
        have hr := run_of_expression_eq_ok hok
        rwa [ho] at hr
      obtain ⟨f, rest, hf, rfl, hts, hlen, -⟩ := of_run_eq_done (.want .start) hrun
      rw [List.nil_append] at hts
      have hrest : ts.drop c.index = rest := by
        have hi : c.index = f.tokens.length := by
          have := congrArg List.length hts
          rw [List.length_append] at this
          simp only at hlen
          omega
        rw [hts, hi, List.drop_left]
      simp only [checkTrailing, Nat.sub_zero, hrest] at h
      cases rest with
      | nil =>
        simp only [List.head?_nil, Except.ok.injEq] at h
        exact ⟨f, hf, by rw [hts, List.append_nil], h⟩
      | cons t rest => exact absurd h (by simp)

/-- In front of a whole phrase with room for it the parser comes to its end. -/
theorem run_of_fits {f : Phrase} (hf : f.Whole g.precedence) (hfit : Fits g.limits {} f) :
    run g f.tokens (.want []) {} = .done f.expr (Cursor.past {} f).leave := by
  have hnone : ∀ level, takes g level none = .ok none := fun _ => rfl
  calc run g f.tokens (.want []) {}
      = run g (f.tokens ++ []) (.want []) {} := by rw [List.append_nil]
    _ = run g [] (.have [] f.expr) (Cursor.past {} f) :=
        run_phrase f hf.grammatical hf.openAt (fun level _ => hnone level) rfl hfit
    _ = .done f.expr (Cursor.past {} f).leave := settle_nil (hnone _)

/-- A run that comes to an end with the last token is the answer for all tokens. -/
theorem parse_of_done {e : Expr} {c : Cursor}
    (h : run (grammarFor p l source ts) ts (.want []) {} = .done e c)
    (hi : c.index = ts.length) : (parse p l source ts).1 = .ok e := by
  have hdrop : ts.drop (c.index - 0) = [] := by rw [Nat.sub_zero, hi, List.drop_length]
  unfold parse
  simp only [expression_of_done h, checkTrailing, hdrop, List.head?_nil]

/-- The answer is that a limit is exceeded. -/
def Exceeds (p : Precedence) (l : Limits) (source : Option String) (ts : List Token) : Prop :=
  ∃ f, (parse p l source ts).1 = .error f ∧ f.IsLimit

/-- A run over tokens that fails makes the answer fail alike. -/
theorem exists_error_of_fails {P : Failure → Prop} {t : Token}
    (h : (run (grammarFor p l source (t :: ts)) (t :: ts) (.want []) {}).Fails P) :
    ∃ f, (parse p l source (t :: ts)).1 = .error f ∧ P f := by
  unfold parse expression
  simp only [List.isEmpty_cons, Bool.false_and, Bool.false_eq_true, if_false]
  cases hs : run (grammarFor p l source (t :: ts)) (t :: ts) (.want []) {} with
  | go mode c => rw [hs] at h; exact h.elim
  | done e c => rw [hs] at h; exact h.elim
  | fail f c => rw [hs] at h; exact ⟨f, rfl, h⟩
  | refused f c => rw [hs] at h; exact ⟨f, rfl, h⟩

/-- So is the answer of a run that reports a limit. -/
theorem exceeds_of_isLimit (h : (run (grammarFor p l source ts) ts (.want []) {}).IsLimit) :
    Exceeds p l source ts := by
  cases ts with
  | nil => exact absurd h (by simp [run, finish, Step.IsLimit, Failure.IsLimit, atEnd, complaint,
      Problem.stage])
  | cons t ts => exact exists_error_of_fails h.fails

/-- A whole phrase with room within the limits is accepted, and the answer is its tree. -/
theorem parse_of_fits {f : Phrase} (hf : f.Whole p) (hfit : Fits l {} f) :
    (parse p l source f.tokens).1 = .ok f.expr :=
  parse_of_done (run_of_fits hf hfit) (Nat.zero_add _)

/-- A whole phrase is accepted with its tree, or it is too large. -/
theorem parse_of_whole {f : Phrase} (hf : f.Whole p) :
    (parse p l source f.tokens).1 = .ok f.expr ∨ Exceeds p l source f.tokens := by
  have hdone : run ((grammarFor p l source f.tokens).within (l.raise f.tokens.length)) f.tokens
      (.want []) {} = .done f.expr (Cursor.past {} f).leave :=
    run_of_fits hf (fits_of_roomy (l.roomy_raise _))
  have hw : (grammarFor p l source f.tokens).limits.Within (l.raise f.tokens.length) :=
    l.within_raise _
  rcases run_within hw f.tokens (.want []) {} with h | h
  · exact Or.inl (parse_of_done (h.trans hdone) (Nat.zero_add _))
  · exact Or.inr (exceeds_of_isLimit h)

/-! ## Limits that are out of reach -/

/-- Nodes made and frames still open are paid for with tokens, and so are the arguments that a
frame has collected. -/
structure Paid (stack : List Frame) (c : Cursor) : Prop where
  nodes : c.nodes + stack.length ≤ c.index
  arguments : ∀ n before, Frame.arg n before ∈ stack → before.length < c.index

/-- What a mode has been paid for, with the tokens that are read for it alone. -/
def Mode.Paid : Mode → Cursor → Prop
  | .want stack, c => c.depth = stack.length ∧ Parser.Paid stack c
  | .called _ stack, c =>
    c.depth = stack.length + 1 ∧ Parser.Paid stack c ∧ c.nodes + stack.length + 1 ≤ c.index
  | .opened _ stack, c =>
    c.depth = stack.length + 1 ∧ Parser.Paid stack c ∧ c.nodes + stack.length + 2 ≤ c.index
  | .have stack _, c => c.depth = stack.length + 1 ∧ Parser.Paid stack c

/-- What a step leaves is paid for, and it reports no limit. -/
def Step.Paid (index : Nat) : Step → Prop
  | .go mode c => mode.Paid c ∧ c.index = index + 1
  | .done _ _ => True
  | .fail f _ => ¬ f.IsLimit
  | .refused f _ => ¬ f.IsLimit

/-- Later on, frames are still paid for. -/
theorem Paid.mono {stack : List Frame} {c c' : Cursor} (h : Paid stack c)
    (hn : c'.nodes + stack.length ≤ c'.index) (hi : c.index ≤ c'.index) : Paid stack c' :=
  ⟨hn, fun n before hm => Nat.lt_of_lt_of_le (h.arguments n before hm) hi⟩

/-- Without its innermost frame a stack is paid for with a token left over. -/
theorem Paid.below {f : Frame} {stack : List Frame} {c c' : Cursor} (h : Paid (f :: stack) c)
    (hn : c'.nodes + c.index ≤ c.nodes + 1 + c'.index) (hi : c.index ≤ c'.index) :
    Paid stack c' := by
  have hnodes := h.nodes
  rw [List.length_cons] at hnodes
  exact ⟨by omega, fun n before hm =>
    Nat.lt_of_lt_of_le (h.arguments n before (List.mem_cons_of_mem _ hm)) hi⟩

/-- One more frame is paid for with one more token. -/
theorem Paid.push {f : Frame} {stack : List Frame} {c c' : Cursor} (h : Paid stack c)
    (hn : c'.nodes = c.nodes) (hi : c'.index = c.index + 1)
    (hf : ∀ n before, f = .arg n before → before.length < c'.index) : Paid (f :: stack) c' := by
  have hnodes := h.nodes
  refine ⟨by rw [List.length_cons]; omega, fun n before hm => ?_⟩
  rcases List.mem_cons.1 hm with heq | hm
  · exact hf n before heq.symm
  · have := h.arguments n before hm
    omega

theorem not_isLimit_complaint (problem : GrammarProblem) (position : Int) :
    ¬ (complaint g problem position).IsLimit := by
  intro h
  cases h

variable {n : Nat}

/-- With room for `n` tokens a paid node is made. -/
theorem paid_make (hr : g.limits.Roomy n) {c : Cursor} {k : Cursor → Step} {index : Nat}
    (hc : c.nodes + 1 ≤ n) (hk : (k c.count).Paid index) : (make g c k).Paid index := by
  have := hr.nodes
  rw [make_of_le (by omega)]
  exact hk

/-- The frame of an operator that goes on is paid for with the operator. -/
theorem paid_settle_of_passes {next : Option Token} {stack : List Frame} {e : Expr} {c : Cursor}
    (h : Paid stack c) (hd : c.depth = stack.length + 1)
    (hnone : takes g (floor stack) next = .ok none → (settle g next stack e c).Paid c.index) :
    (settle g next stack e c).Paid c.index := by
  cases ht : takes g (floor stack) next with
  | error fault =>
    rw [settle_of_error ht]
    exact id
  | ok r =>
    cases r with
    | none => exact hnone ht
    | some x =>
      rw [settle_of_takes ht]
      exact ⟨⟨hd, h.push rfl rfl (by simp)⟩, rfl⟩

theorem Paid.depth_leave {f : Frame} {below : List Frame} {c : Cursor}
    (hd : c.depth = (f :: below).length + 1) : c.leave.depth = below.length + 1 := by
  rw [List.length_cons] at hd
  simp only [Cursor.leave]
  omega

/-- The node of a frame has been paid for. -/
theorem Paid.room {f : Frame} {below : List Frame} {c : Cursor} (h : Paid (f :: below) c)
    (hn : c.index ≤ n) : c.nodes + 1 ≤ n := by
  have hnodes := h.nodes
  rw [List.length_cons] at hnodes
  omega

theorem paid_settle_group {next : Option Token} {below : List Frame} {e : Expr} {c : Cursor}
    (h : Paid (.group :: below) c) (hd : c.depth = (Frame.group :: below).length + 1)
    (ht : takes g Precedence.lowest next = .ok none) :
    (settle g next (.group :: below) e c).Paid c.index := by
  cases next with
  | none =>
    rw [settle_group_none]
    exact not_isLimit_complaint _ _
  | some t =>
    rw [settle_group ht]
    by_cases hb : t.isClosing = true
    · rw [if_pos hb]
      have hpaid : Paid below c.leave.advance := by
        refine h.below ?_ (Nat.le_succ _)
        simp only [Cursor.leave, Cursor.advance]
        omega
      exact ⟨⟨Paid.depth_leave hd, hpaid⟩, rfl⟩
    · rw [if_neg hb]
      exact not_isLimit_complaint _ _

/-- The arguments of a call are within the limits, as each of them took a token. -/
theorem paid_settle_arg (hr : g.limits.Roomy n) {next : Option Token} {name : Token}
    {before : List Expr} {below : List Frame} {e : Expr} {c : Cursor}
    (h : Paid (.arg name before :: below) c)
    (hd : c.depth = (Frame.arg name before :: below).length + 1) (hn : c.index ≤ n)
    (ht : takes g Precedence.lowest next = .ok none) :
    (settle g next (.arg name before :: below) e c).Paid c.index := by
  have hbefore : before.length < c.index := h.arguments name before (List.mem_cons_self ..)
  have hcheck : g.limits.check .arguments (before ++ [e]).length (some name.position) g.source
      = .ok () := by
    have ha := hr.arguments
    refine check_of_le ?_
    rw [List.length_append, List.length_singleton]
    show _ ≤ g.limits.arguments
    omega
  have hleave := Paid.depth_leave hd
  cases next with
  | none =>
    rw [settle_arg_none hcheck]
    exact not_isLimit_complaint _ _
  | some t =>
    rw [settle_arg ht hcheck]
    by_cases hb : t.isClosing = true
    · rw [if_pos hb]
      have hpaid : Paid below c.leave.advance.count := by
        refine h.below ?_ (Nat.le_succ _)
        simp only [Cursor.leave, Cursor.advance, Cursor.count]
        omega
      exact paid_make hr (h.room hn) ⟨⟨hleave, hpaid⟩, rfl⟩
    · rw [if_neg hb]
      by_cases hk : t.kind = .comma
      · rw [if_pos hk]
        have hpaid : Paid below c.leave := h.below (by simp [Cursor.leave]) (Nat.le_refl _)
        refine ⟨⟨hleave, hpaid.push rfl rfl fun n' before' heq => ?_⟩, rfl⟩
        obtain ⟨rfl, rfl⟩ := Frame.arg.inj heq
        rw [List.length_append, List.length_singleton]
        exact Nat.succ_lt_succ hbefore
      · rw [if_neg hk]
        exact not_isLimit_complaint _ _

theorem paid_settle (hr : g.limits.Roomy n) {next : Option Token} {stack : List Frame} {e : Expr}
    {c : Cursor} (h : Paid stack c) (hd : c.depth = stack.length + 1) (hn : c.index ≤ n) :
    (settle g next stack e c).Paid c.index := by
  induction stack generalizing e c with
  | nil =>
    refine paid_settle_of_passes h hd fun ht => ?_
    rw [settle_nil ht]
    trivial
  | cons f below ih =>
    have hleave := Paid.depth_leave hd
    have hbelow : Paid below c.leave.count := h.below (Nat.le_refl _) (Nat.le_refl _)
    refine paid_settle_of_passes h hd fun ht => ?_
    cases f with
    | right left op level =>
      have ht : takes g level next = .ok none := ht
      rw [settle_right ht]
      exact paid_make hr (h.room hn) (ih hbelow hleave hn)
    | unary op level =>
      have ht : takes g level next = .ok none := ht
      rw [settle_unary ht]
      exact paid_make hr (h.room hn) (ih hbelow hleave hn)
    | group => exact paid_settle_group h hd ht
    | arg name before => exact paid_settle_arg hr h hd hn ht

theorem paid_startOperand (hr : g.limits.Roomy n) {t : Token} {after : Option Token}
    {stack : List Frame} {c : Cursor} (h : Paid stack c) (hd : c.depth = stack.length)
    (hn : c.index + 1 ≤ n) : (startOperand g t after stack c).Paid c.index := by
  have hnodes := h.nodes
  have hm : mayEnter g c = true := by
    have := hr.nestingDepth
    exact mayEnter_of_le (by omega)
  have hdepth : c.enter.advance.depth = stack.length + 1 := congrArg (· + 1) hd
  have hpush : ∀ f : Frame, (∀ name before, f ≠ .arg name before) →
      Paid (f :: stack) c.enter.advance := fun f hf =>
    h.push rfl rfl fun name before heq => absurd heq (hf name before)
  have hoperand : Paid stack c.enter.advance.count := by
    refine h.mono ?_ (Nat.le_succ _)
    simp only [Cursor.enter, Cursor.advance, Cursor.count]
    omega
  have hmake : c.enter.advance.nodes + 1 ≤ n := by
    simp only [Cursor.enter, Cursor.advance]
    omega
  unfold startOperand
  rw [hm]
  simp only [Bool.not_true, Bool.false_eq_true, if_false]
  cases unaryLevel? g t with
  | some level => exact ⟨⟨hdepth, hpush _ (by simp)⟩, rfl⟩
  | none =>
    by_cases ho : t.isOpening = true
    · simp only [ho, if_true]
      exact ⟨⟨hdepth, hpush _ (by simp)⟩, rfl⟩
    · simp only [ho, Bool.false_eq_true, if_false]
      cases t.kind with
      | identifier =>
        by_cases ha : after.any Token.isOpening = true
        · simp only [ha, if_true]
          have hpaid : Paid stack c.enter.advance := h.mono (Nat.le_succ_of_le hnodes) (Nat.le_succ _)
          exact ⟨⟨hdepth, hpaid, Nat.succ_le_succ hnodes⟩, rfl⟩
        · simp only [ha, Bool.false_eq_true, if_false]
          exact paid_make hr hmake ⟨⟨hdepth, hoperand⟩, rfl⟩
      | constant => exact paid_make hr hmake ⟨⟨hdepth, hoperand⟩, rfl⟩
      | parenthesis => exact not_isLimit_complaint _ _
      | operator => exact not_isLimit_complaint _ _
      | comma => exact not_isLimit_complaint _ _

/-- A step pays for what it leaves with the token that it consumes. -/
theorem paid_step (hr : g.limits.Roomy n) {t : Token} {after : Option Token} {mode : Mode}
    {c : Cursor} (h : mode.Paid c) (hn : c.index + 1 ≤ n) :
    (step g t after mode c).Paid c.index := by
  cases mode with
  | want stack => exact paid_startOperand hr h.2 h.1 hn
  | called name stack =>
    obtain ⟨hd, hp, hi⟩ := h
    have hpaid : Paid stack c.advance := hp.mono (Nat.le_succ_of_le hp.nodes) (Nat.le_succ _)
    exact ⟨⟨hd, hpaid, Nat.succ_le_succ hi⟩, rfl⟩
  | opened name stack =>
    obtain ⟨hd, hp, hi⟩ := h
    rw [step]
    by_cases hb : t.isClosing = true
    · rw [if_pos hb]
      have hmake : c.advance.nodes + 1 ≤ n := by
        simp only [Cursor.advance]
        omega
      have hpaid : Paid stack c.advance.count := by
        refine hp.mono ?_ (Nat.le_succ _)
        simp only [Cursor.advance, Cursor.count]
        omega
      exact paid_make hr hmake ⟨⟨hd, hpaid⟩, rfl⟩
    · rw [if_neg hb]
      have hpaid : Paid (.arg name [] :: stack) c := by
        refine ⟨by rw [List.length_cons]; omega, fun n' before hm => ?_⟩
        rcases List.mem_cons.1 hm with heq | hm
        · obtain ⟨rfl, rfl⟩ := Frame.arg.inj heq
          exact Nat.lt_of_lt_of_le (Nat.succ_pos _) hi
        · exact hp.arguments n' before hm
      exact paid_startOperand hr hpaid hd hn
  | «have» stack e => exact paid_settle hr h.2 h.1 (Nat.le_of_succ_le hn)

theorem not_isLimit_of_paid (hr : g.limits.Roomy n) {mode : Mode} {c : Cursor} (h : mode.Paid c)
    (hn : c.index + ts.length ≤ n) : ¬ (run g ts mode c).IsLimit := by
  induction ts generalizing mode c with
  | nil =>
    rw [run]
    cases mode with
    | want stack => exact not_isLimit_complaint _ _
    | called name stack => exact not_isLimit_complaint _ _
    | opened name stack => exact not_isLimit_complaint _ _
    | «have» stack e =>
      have hs : (settle g none stack e c).Paid c.index := paid_settle hr h.2 h.1 hn
      rw [finish]
      cases hstep : settle g none stack e c with
      | go mode' c' => exact id
      | done e' c' => exact id
      | fail f c' => rw [hstep] at hs; exact hs
      | refused f c' => rw [hstep] at hs; exact hs
  | cons t ts ih =>
    rw [List.length_cons] at hn
    have hs : (step g t ts.head? mode c).Paid c.index := paid_step hr h (by omega)
    rw [run]
    cases hstep : step g t ts.head? mode c with
    | go mode' c' =>
      rw [hstep] at hs
      exact ih hs.1 (by rw [hs.2]; omega)
    | done e c' => exact id
    | fail f c' => rw [hstep] at hs; exact hs
    | refused f c' => rw [hstep] at hs; exact hs

/-- Limits with room for more than the tokens are not reached. -/
theorem not_exceeds_of_roomy (hr : l.Roomy (ts.length + 1)) : ¬ Exceeds p l source ts := by
  rintro ⟨f, h, hf⟩
  have hrun : ¬ (run (grammarFor p l source ts) ts (.want []) {}).IsLimit :=
    not_isLimit_of_paid hr ⟨rfl, Nat.le_refl 0, fun _ _ hm => absurd hm List.not_mem_nil⟩
      (by simp only; omega)
  have hm : mayEnter (grammarFor p l source ts) {} = true := by
    have := hr.nestingDepth
    refine mayEnter_of_le ?_
    show (0 + 1 : Int) ≤ l.nestingDepth
    omega
  unfold parse expression at h
  simp only [hm, Bool.not_true, Bool.and_false, Bool.false_eq_true, if_false] at h
  cases hs : run (grammarFor p l source ts) ts (.want []) {} with
  | go mode c =>
    rw [hs] at h
    obtain rfl := Except.error.inj h
    exact not_isLimit_complaint _ _ hf
  | done e c =>
    rw [hs] at h
    unfold checkTrailing at h
    simp only at h
    split at h
    · obtain rfl := Except.error.inj h
      exact not_isLimit_complaint _ _ hf
    · exact absurd h (by simp)
  | fail f' c =>
    rw [hs] at h hrun
    obtain rfl := Except.error.inj h
    exact hrun hf
  | refused f' c =>
    rw [hs] at h hrun
    obtain rfl := Except.error.inj h
    exact hrun hf

end Parser

end Reckon
