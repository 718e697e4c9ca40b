import Reckon.Proofs.Expr.Phrase
/-
  The parser reads what is grammatical. `run_phrase`: in front of a grammatical phrase, with an
  operand due, the parser comes to the place behind the phrase with its tree as an operand. It
  needs room within the limits (`Fits`), a left side whose operators go on at the level of the
  frame that waits, and a next token that the right side leaves alone.

  The limits are met exactly: a phrase is charged one frame for each group, argument, right operand
  and operand of a prefix operator that is open at once (`Phrase.nesting`), one node for each
  node of its tree, and each call is charged its number of arguments (`Phrase.arities`).
-/
namespace Reckon

/-! ## What a phrase is charged -/

def Arguments.length : Arguments → Nat
  | .last .. => 1
  | .more _ _ others => others.length + 1

mutual
/-- The frames that are open at once inside a phrase. -/
def Phrase.nesting : Phrase → Nat
  | .constant _ => 0
  | .name _ => 0
  | .unary _ e => e.nesting + 1
  | .binary l _ r => max l.nesting (r.nesting + 1)
  | .group _ e _ => e.nesting + 1
  | .nullary .. => 0
  | .call _ _ args => args.nesting

def Arguments.nesting : Arguments → Nat
  | .last e _ => e.nesting + 1
  | .more e _ others => max (e.nesting + 1) others.nesting
end

mutual
/-- The numbers of arguments of the calls in a phrase. -/
def Phrase.arities : Phrase → List Nat
  | .constant _ => []
  | .name _ => []
  | .unary _ e => e.arities
  | .binary l _ r => l.arities ++ r.arities
  | .group _ e _ => e.arities
  | .nullary .. => []
  | .call _ _ args => args.length :: args.arities

def Arguments.arities : Arguments → List Nat
  | .last e _ => e.arities
  | .more e _ others => e.arities ++ others.arities
end

namespace Parser

/-- A phrase has room within the limits, read with the cursor at `c`. -/
structure Fits (l : Limits) (c : Cursor) (e : Phrase) : Prop where
  nesting : (c.depth + 1 + e.nesting : Int) ≤ l.nestingDepth
  nodes : (c.nodes + e.expr.size : Int) ≤ l.nodes
  arities : ∀ n ∈ e.arities, (n : Int) ≤ l.arguments

/-- Arguments have room within the limits, behind `before` arguments of the same call. -/
structure FitsArguments (l : Limits) (c : Cursor) (before : Nat) (args : Arguments) : Prop where
  nesting : (c.depth + args.nesting : Int) ≤ l.nestingDepth
  nodes : (c.nodes + Expr.sizeAll args.exprs + 1 : Int) ≤ l.nodes
  arities : ∀ n ∈ args.arities, (n : Int) ≤ l.arguments
  length : (before + args.length : Int) ≤ l.arguments

/-- The cursor behind a phrase whose frame has been entered. -/
def Cursor.past (c : Cursor) (e : Phrase) : Cursor :=
  ⟨c.index + e.tokens.length, c.depth + 1, c.nodes + e.expr.size⟩

/-- The cursor behind a call with arguments, read from its first argument on. -/
def Cursor.pastArguments (c : Cursor) (args : Arguments) : Cursor :=
  ⟨c.index + args.tokens.length, c.depth, c.nodes + Expr.sizeAll args.exprs + 1⟩

namespace Cursor

theorem past_unary (c : Cursor) (op : Token) (e : Phrase) :
    (c.enter.advance.past e).leave.count = c.past (.unary op e) := by
  simp only [past, enter, advance, leave, count, Phrase.tokens, Phrase.expr, Expr.size,
    List.length_cons, Cursor.mk.injEq]
  omega

theorem past_binary (c : Cursor) (l r : Phrase) (op : Token) :
    ((c.past l).advance.past r).leave.count = c.past (.binary l op r) := by
  simp only [past, advance, leave, count, Phrase.tokens, Phrase.expr, Expr.size,
    List.length_append, List.length_cons, Cursor.mk.injEq]
  omega

theorem past_group (c : Cursor) (a b : Token) (e : Phrase) :
    (c.enter.advance.past e).leave.advance = c.past (.group a e b) := by
  simp only [past, enter, advance, leave, Phrase.tokens, Phrase.expr, List.length_append,
    List.length_cons, List.length_nil, Cursor.mk.injEq, and_true]
  omega

theorem past_call (c : Cursor) (n a : Token) (args : Arguments) :
    c.enter.advance.advance.pastArguments args = c.past (.call n a args) := by
  simp only [past, pastArguments, enter, advance, Phrase.tokens, Phrase.expr, Expr.size,
    List.length_cons, Cursor.mk.injEq, true_and]
  omega

theorem pastArguments_last (c : Cursor) (e : Phrase) (b : Token) :
    (c.past e).leave.advance.count = c.pastArguments (.last e b) := by
  simp only [past, pastArguments, advance, leave, count, Arguments.tokens, Arguments.exprs,
    Expr.sizeAll, List.length_append, List.length_cons, List.length_nil, Cursor.mk.injEq]
  omega

theorem pastArguments_more (c : Cursor) (e : Phrase) (comma : Token) (others : Arguments) :
    (c.past e).leave.advance.pastArguments others = c.pastArguments (.more e comma others) := by
  simp only [past, pastArguments, advance, leave, Arguments.tokens, Arguments.exprs, Expr.sizeAll,
    List.length_append, List.length_cons, Cursor.mk.injEq]
  omega

end Cursor

/-! ## Steps of the parser -/

variable {g : Grammar}

theorem check_of_le {l : Limits} {limit : Limit} {actual : Int} {position : Option Int}
    {expression : Option String} (h : actual ≤ limit.bound l) :
    l.check limit actual position expression = .ok () := by
  have hn : ¬ actual > limit.bound l := by omega
  unfold Limits.check
  rw [if_neg hn]
  rfl

theorem check_of_lt {l : Limits} {limit : Limit} {actual : Int} {position : Option Int}
    {expression : Option String} (h : limit.bound l < actual) :
    l.check limit actual position expression
      = .error (.error (.ofLimit l limit actual position expression)) := by
  unfold Limits.check
  rw [if_pos h]
  rfl

/-- A count that is refused is refused for the limit. -/
theorem eq_of_check_eq_error {l : Limits} {limit : Limit} {actual : Int} {position : Option Int}
    {expression : Option String} {f : Failure}
    (h : l.check limit actual position expression = .error f) :
    f = .error (.ofLimit l limit actual position expression) := by
  by_cases hn : actual ≤ limit.bound l
  · exact absurd ((check_of_le hn).symm.trans h) (by simp)
  · exact Except.error.inj (h.symm.trans (check_of_lt (by omega)))

theorem make_of_le {c : Cursor} {next : Cursor → Step} (h : (c.nodes + 1 : Int) ≤ g.limits.nodes) :
    make g c next = next c.count := by
  have hc : g.limits.check .nodes c.count.nodes = .ok () := check_of_le h
  unfold make
  rw [hc]

theorem takes_some (floor : Level) (t : Token) :
    takes g floor (some t) =
      if t.kind = .operator then
        (g.precedence.continues floor t.text).map fun level => level.map fun l => (t, l)
      else .ok none := rfl

theorem takes_of_kind_ne {t : Token} (floor : Level) (h : t.kind ≠ .operator) :
    takes g floor (some t) = .ok none := by
  rw [takes_some, if_neg h]

theorem takes_of_leaves {t : Token} {floor : Level} (h : g.precedence.Leaves floor t.text) :
    takes g floor (some t) = .ok none := by
  rw [takes_some, h]
  split <;> rfl

theorem takes_of_continues {t : Token} {floor level : Level} (hk : t.kind = .operator)
    (h : g.precedence.continues floor t.text = .ok (some level)) :
    takes g floor (some t) = .ok (some (t, level)) := by
  rw [takes_some, if_pos hk, h]
  rfl

/-! ### Completing frames -/

section

variable {next : Option Token} {below : List Frame} {e : Expr} {c : Cursor}

theorem settle_nil (h : takes g Precedence.lowest next = .ok none) :
    settle g next [] e c = .done e c.leave := by
  rw [settle.eq_def]
  simp only [floor, h]

theorem settle_right {l : Expr} {op : Token} {level : Level} (h : takes g level next = .ok none) :
    settle g next (.right l op level :: below) e c
      = make g c.leave fun c => settle g next below (.binary op.text l e op.position) c := by
  rw [settle.eq_def]
  simp only [floor, Frame.floor, h]

theorem settle_unary {op : Token} {level : Level} (h : takes g level next = .ok none) :
    settle g next (.unary op level :: below) e c
      = make g c.leave fun c => settle g next below (.unary op.text e op.position) c := by
  rw [settle.eq_def]
  simp only [floor, Frame.floor, h]

theorem settle_group {b : Token} (h : takes g Precedence.lowest (some b) = .ok none) :
    settle g (some b) (.group :: below) e c =
      if b.isClosing then .go (.have below e) c.leave.advance
      else .fail (at? g .unclosedGroup b) c.leave := by
  rw [settle.eq_def]
  simp only [floor, Frame.floor, h]

theorem settle_group_none :
    settle g none (.group :: below) e c = .fail (atEnd g .expectedClosing) c.leave := by
  rw [settle.eq_def]
  rfl

/-- The argument `e` is one too many. -/
theorem settle_arg_of_error {n : Token} {before : List Expr} {f : Failure}
    (h : takes g Precedence.lowest next = .ok none)
    (hc : g.limits.check .arguments (before ++ [e]).length (some n.position) g.source = .error f) :
    settle g next (.arg n before :: below) e c = .fail f c.leave := by
  rw [settle.eq_def]
  simp only [floor, Frame.floor, h, hc]

theorem settle_arg {n b : Token} {before : List Expr}
    (h : takes g Precedence.lowest (some b) = .ok none)
    (hc : g.limits.check .arguments (before ++ [e]).length (some n.position) g.source = .ok ()) :
    settle g (some b) (.arg n before :: below) e c =
      if b.isClosing then
        make g c.leave.advance fun c =>
          .go (.have below (.call n.text (before ++ [e]) n.position)) c
      else if b.kind = .comma then .go (.want (.arg n (before ++ [e]) :: below)) c.leave.advance
      else .fail (at? g .expectedCommaOrClosing b) c.leave := by
  rw [settle.eq_def]
  simp only [floor, Frame.floor, h, hc]

theorem settle_arg_none {n : Token} {before : List Expr}
    (hc : g.limits.check .arguments (before ++ [e]).length (some n.position) g.source = .ok ()) :
    settle g none (.arg n before :: below) e c = .fail (atEnd g .expectedClosing) c.leave := by
  rw [settle.eq_def]
  simp only [takes, hc]

end

/-! ### Going on -/

theorem run_go {t : Token} {ts : List Token} {mode mode' : Mode} {c c' : Cursor}
    (h : step g t ts.head? mode c = .go mode' c') : run g (t :: ts) mode c = run g ts mode' c' := by
  rw [run, h]

/-- Behind an operand only what completes it matters: frames that come to the same, do the same. -/
theorem run_have_congr {ts : List Token} {stack stack' : List Frame} {e e' : Expr} {c c' : Cursor}
    (h : settle g ts.head? stack e c = settle g ts.head? stack' e' c') :
    run g ts (.have stack e) c = run g ts (.have stack' e') c' := by
  cases ts with
  | nil => exact h
  | cons t ts =>
    have hs : step g t ts.head? (.have stack e) c = step g t ts.head? (.have stack' e') c' := h
    rw [run, run, hs]

/-! ### Operands -/

theorem mayEnter_of_le {c : Cursor} (h : (c.depth + 1 : Int) ≤ g.limits.nestingDepth) :
    mayEnter g c = true := decide_eq_true h

theorem unaryLevel?_of_kind_ne {t : Token} (h : t.kind ≠ .operator) : unaryLevel? g t = none := by
  unfold unaryLevel?
  rw [if_neg h]

theorem step_constant {t : Token} {after : Option Token} {stack : List Frame} {c : Cursor}
    (hk : t.kind = .constant) (hd : (c.depth + 1 : Int) ≤ g.limits.nestingDepth) :
    step g t after (.want stack) c = make g c.enter.advance fun c =>
      .go (.have stack (.constant t.text t.position)) c := by
  have hu : unaryLevel? g t = none := unaryLevel?_of_kind_ne (by rw [hk]; decide)
  have ho : t.isOpening = false := Token.isOpening_eq_false (by rw [hk]; decide)
  rw [step, startOperand, mayEnter_of_le hd]
  simp only [Bool.not_true, Bool.false_eq_true, if_false, hu, ho, hk]

theorem run_constant {t : Token} {rest : List Token} {stack : List Frame} {c : Cursor}
    (hk : t.kind = .constant) (hd : (c.depth + 1 : Int) ≤ g.limits.nestingDepth)
    (hn : (c.nodes + 1 : Int) ≤ g.limits.nodes) :
    run g (t :: rest) (.want stack) c
      = run g rest (.have stack (.constant t.text t.position)) c.enter.advance.count := by
  apply run_go
  rw [step_constant hk hd]
  exact make_of_le hn

theorem step_name {t : Token} {after : Option Token} {stack : List Frame} {c : Cursor}
    (hk : t.kind = .identifier) (hr : after.any Token.isOpening = false)
    (hd : (c.depth + 1 : Int) ≤ g.limits.nestingDepth) :
    step g t after (.want stack) c = make g c.enter.advance fun c =>
      .go (.have stack (.var t.text t.position)) c := by
  have hu : unaryLevel? g t = none := unaryLevel?_of_kind_ne (by rw [hk]; decide)
  have ho : t.isOpening = false := Token.isOpening_eq_false (by rw [hk]; decide)
  rw [step, startOperand, mayEnter_of_le hd]
  simp only [Bool.not_true, Bool.false_eq_true, if_false, hu, ho, hk, hr]

theorem run_name {t : Token} {rest : List Token} {stack : List Frame} {c : Cursor}
    (hk : t.kind = .identifier) (hr : rest.head?.any Token.isOpening = false)
    (hd : (c.depth + 1 : Int) ≤ g.limits.nestingDepth) (hn : (c.nodes + 1 : Int) ≤ g.limits.nodes) :
    run g (t :: rest) (.want stack) c
      = run g rest (.have stack (.var t.text t.position)) c.enter.advance.count := by
  apply run_go
  rw [step_name hk hr hd]
  exact make_of_le hn

theorem run_call {n a : Token} {rest : List Token} {stack : List Frame} {c : Cursor}
    (hk : n.kind = .identifier) (ha : a.isOpening = true)
    (hd : (c.depth + 1 : Int) ≤ g.limits.nestingDepth) :
    run g (n :: a :: rest) (.want stack) c
      = run g rest (.opened n stack) c.enter.advance.advance := by
  have hs : step g n (a :: rest).head? (.want stack) c = .go (.called n stack) c.enter.advance := by
    have hu : unaryLevel? g n = none := unaryLevel?_of_kind_ne (by rw [hk]; decide)
    have ho : n.isOpening = false := Token.isOpening_eq_false (by rw [hk]; decide)
    rw [step, startOperand, mayEnter_of_le hd]
    simp [hu, ho, hk, ha]
  rw [run_go hs]
  exact run_go rfl

theorem step_opened_closing {n b : Token} {after : Option Token} {stack : List Frame} {c : Cursor}
    (hb : b.isClosing = true) :
    step g b after (.opened n stack) c = make g c.advance fun c =>
      .go (.have stack (.call n.text [] n.position)) c := by
  rw [step, if_pos hb]

theorem run_opened_closing {n b : Token} {rest : List Token} {stack : List Frame} {c : Cursor}
    (hb : b.isClosing = true) (hn : (c.nodes + 1 : Int) ≤ g.limits.nodes) :
    run g (b :: rest) (.opened n stack) c
      = run g rest (.have stack (.call n.text [] n.position)) c.advance.count := by
  apply run_go
  rw [step_opened_closing hb]
  exact make_of_le hn

/-- Behind the parenthesis of a call an argument is read as an operand. -/
theorem run_opened {n t : Token} {rest : List Token} {stack : List Frame} {c : Cursor}
    (ht : t.isClosing = false) :
    run g (t :: rest) (.opened n stack) c = run g (t :: rest) (.want (.arg n [] :: stack)) c := by
  have hs : step g t rest.head? (.opened n stack) c
      = step g t rest.head? (.want (.arg n [] :: stack)) c := by
    simp [step, ht]
  rw [run, run, hs]

theorem run_unary {op : Token} {rest : List Token} {stack : List Frame} {level : Level} {c : Cursor}
    (hk : op.kind = .operator) (hl : g.precedence.unaryLevel op.text = some level)
    (hd : (c.depth + 1 : Int) ≤ g.limits.nestingDepth) :
    run g (op :: rest) (.want stack) c
      = run g rest (.want (.unary op level :: stack)) c.enter.advance := by
  apply run_go
  have hu : unaryLevel? g op = some level := by
    unfold unaryLevel?
    rw [if_pos hk, hl]
  rw [step, startOperand, mayEnter_of_le hd]
  simp [hu]

theorem run_group {a : Token} {rest : List Token} {stack : List Frame} {c : Cursor}
    (ha : a.isOpening = true) (hd : (c.depth + 1 : Int) ≤ g.limits.nestingDepth) :
    run g (a :: rest) (.want stack) c = run g rest (.want (.group :: stack)) c.enter.advance := by
  apply run_go
  have hu : unaryLevel? g a = none :=
    unaryLevel?_of_kind_ne (by rw [Token.kind_of_isOpening ha]; decide)
  rw [step, startOperand, mayEnter_of_le hd]
  simp [hu, ha]

/-! ### What completes an operand -/

/-- An operator that goes on makes its left operand wait for the right one. -/
theorem run_have_takes {op : Token} {rest : List Token} {stack : List Frame} {l : Expr}
    {level : Level} {c : Cursor} (ht : takes g (floor stack) (some op) = .ok (some (op, level))) :
    run g (op :: rest) (.have stack l) c
      = run g rest (.want (.right l op level :: stack)) c.advance := by
  apply run_go
  rw [step, settle_of_takes ht]

/-- A right operand is complete when the next token does not go on with it. -/
theorem run_have_right {ts : List Token} {below : List Frame} {l e : Expr} {op : Token}
    {level : Level} {c : Cursor} (ht : takes g level ts.head? = .ok none)
    (hn : (c.nodes + 1 : Int) ≤ g.limits.nodes) :
    run g ts (.have (.right l op level :: below) e) c
      = run g ts (.have below (.binary op.text l e op.position)) c.leave.count := by
  apply run_have_congr
  rw [settle_right ht, make_of_le (by simpa [Cursor.leave] using hn)]

/-- An operand of a prefix operator is complete when the next token does not go on with it. -/
theorem run_have_unary {ts : List Token} {below : List Frame} {e : Expr} {op : Token}
    {level : Level} {c : Cursor} (ht : takes g level ts.head? = .ok none)
    (hn : (c.nodes + 1 : Int) ≤ g.limits.nodes) :
    run g ts (.have (.unary op level :: below) e) c
      = run g ts (.have below (.unary op.text e op.position)) c.leave.count := by
  apply run_have_congr
  rw [settle_unary ht, make_of_le (by simpa [Cursor.leave] using hn)]

theorem run_have_group {b : Token} {rest : List Token} {below : List Frame} {e : Expr} {c : Cursor}
    (hb : b.isClosing = true) :
    run g (b :: rest) (.have (.group :: below) e) c
      = run g rest (.have below e) c.leave.advance := by
  apply run_go
  have ht : takes g Precedence.lowest (some b) = .ok none :=
    takes_of_kind_ne _ (by rw [Token.kind_of_isClosing hb]; decide)
  rw [step, settle_group ht, if_pos hb]

theorem step_have_lastArg {n b : Token} {after : Option Token} {below : List Frame}
    {before : List Expr} {e : Expr} {c : Cursor} (hb : b.isClosing = true)
    (ha : (before.length + 1 : Int) ≤ g.limits.arguments) :
    step g b after (.have (.arg n before :: below) e) c = make g c.leave.advance fun c =>
      .go (.have below (.call n.text (before ++ [e]) n.position)) c := by
  have ht : takes g Precedence.lowest (some b) = .ok none :=
    takes_of_kind_ne _ (by rw [Token.kind_of_isClosing hb]; decide)
  have hc : g.limits.check .arguments (before ++ [e]).length (some n.position) g.source = .ok () :=
    check_of_le (by simpa [Limit.bound] using ha)
  rw [step, settle_arg ht hc, if_pos hb]

theorem run_have_lastArg {n b : Token} {rest : List Token} {below : List Frame} {before : List Expr}
    {e : Expr} {c : Cursor} (hb : b.isClosing = true)
    (ha : (before.length + 1 : Int) ≤ g.limits.arguments)
    (hn : (c.nodes + 1 : Int) ≤ g.limits.nodes) :
    run g (b :: rest) (.have (.arg n before :: below) e) c
      = run g rest (.have below (.call n.text (before ++ [e]) n.position))
          c.leave.advance.count := by
  apply run_go
  rw [step_have_lastArg hb ha]
  exact make_of_le hn

theorem run_have_arg {n comma : Token} {rest : List Token} {below : List Frame}
    {before : List Expr} {e : Expr} {c : Cursor} (hk : comma.kind = .comma)
    (ha : (before.length + 1 : Int) ≤ g.limits.arguments) :
    run g (comma :: rest) (.have (.arg n before :: below) e) c
      = run g rest (.want (.arg n (before ++ [e]) :: below)) c.leave.advance := by
  apply run_go
  have ht : takes g Precedence.lowest (some comma) = .ok none :=
    takes_of_kind_ne _ (by rw [hk]; decide)
  have hc : g.limits.check .arguments (before ++ [e]).length (some n.position) g.source = .ok () :=
    check_of_le (by simpa [Limit.bound] using ha)
  have hb : comma.isClosing = false := Token.isClosing_eq_false (by rw [hk]; decide)
  rw [step, settle_arg ht hc, if_neg (by rw [hb]; decide), if_pos hk]

/-! ## Phrases -/

/-- Nothing that is no operator goes on with an operand. -/
theorem takes_head?_of_kind_ne {t : Token} {rest : List Token} (h : t.kind ≠ .operator)
    (levels : List Level) : ∀ level ∈ levels, takes g level (t :: rest).head? = .ok none :=
  fun level _ => takes_of_kind_ne level h

mutual
/-- The parser reads a grammatical phrase, and stands behind it with its tree as an operand. -/
theorem run_phrase (e : Phrase) (he : e.Grammatical g.precedence) {stack : List Frame}
    {rest : List Token} {c : Cursor} (hs : e.OpenAt g.precedence (floor stack))
    (hr : ∀ level ∈ e.rightSpine g.precedence, takes g level rest.head? = .ok none)
    (ho : rest.head?.any Token.isOpening = false) (hf : Fits g.limits c e) :
    run g (e.tokens ++ rest) (.want stack) c = run g rest (.have stack e.expr) (c.past e) := by
  obtain ⟨hd, hn, ha⟩ := hf
  match e, he with
  | .constant t, he =>
    simp only [Phrase.nesting, Phrase.expr, Expr.size] at hd hn
    exact run_constant he (by omega) (by omega)
  | .name t, he =>
    simp only [Phrase.nesting, Phrase.expr, Expr.size] at hd hn
    exact run_name he ho (by omega) (by omega)
  | .unary op e, ⟨hk, ⟨level, hl, hopen⟩, he⟩ =>
    simp only [Phrase.nesting, Phrase.expr, Expr.size] at hd hn
    rw [Phrase.rightSpine_unary hl, List.forall_mem_cons] at hr
    have hfit : Fits g.limits c.enter.advance e := by
      refine ⟨?_, ?_, ha⟩
      · simp only [Cursor.enter, Cursor.advance]; omega
      · simp only [Cursor.enter, Cursor.advance]; omega
    calc run g (op :: (e.tokens ++ rest)) (.want stack) c
        = run g (e.tokens ++ rest) (.want (.unary op level :: stack)) c.enter.advance :=
          run_unary hk hl (by omega)
      _ = run g rest (.have (.unary op level :: stack) e.expr) (c.enter.advance.past e) :=
          run_phrase e he hopen hr.2 ho hfit
      _ = run g rest (.have stack (.unary op.text e.expr op.position))
            (c.enter.advance.past e).leave.count :=
          run_have_unary hr.1 (by
            simp only [Cursor.past, Cursor.enter, Cursor.advance]; omega)
      _ = run g rest (.have stack (Phrase.unary op e).expr) (c.past (.unary op e)) :=
          congrArg _ (c.past_unary op e)
  | .binary l op r, ⟨hk, ⟨level, hl, hopen⟩, hleave, hgl, hgr⟩ =>
    simp only [Phrase.nesting, Phrase.expr, Expr.size] at hd hn
    rw [Phrase.rightSpine_binary hl, List.forall_mem_cons] at hr
    simp only [Phrase.arities, List.mem_append] at ha
    obtain ⟨level', hl', hcont⟩ := (hs op.text (List.mem_cons_self ..)).exists_level
    have heq : level' = level := Option.some.inj (hl'.symm.trans hl)
    subst heq
    have hfl : Fits g.limits c l := ⟨by omega, by omega, fun n h => ha n (Or.inl h)⟩
    have hfr : Fits g.limits (c.past l).advance r := by
      refine ⟨?_, ?_, fun n h => ha n (Or.inr h)⟩
      · simp only [Cursor.past, Cursor.advance]; omega
      · simp only [Cursor.past, Cursor.advance]; omega
    have hop : op.isOpening = false := Token.isOpening_eq_false (by rw [hk]; decide)
    calc run g ((l.tokens ++ op :: r.tokens) ++ rest) (.want stack) c
        = run g (l.tokens ++ op :: (r.tokens ++ rest)) (.want stack) c := by
          rw [List.append_assoc, List.cons_append]
      _ = run g (op :: (r.tokens ++ rest)) (.have stack l.expr) (c.past l) :=
          run_phrase l hgl (fun q hq => hs q (List.mem_cons_of_mem _ hq))
            (fun x hx => takes_of_leaves (hleave x hx)) hop hfl
      _ = run g (r.tokens ++ rest) (.want (.right l.expr op level' :: stack))
            (c.past l).advance := run_have_takes (takes_of_continues hk hcont)
      _ = run g rest (.have (.right l.expr op level' :: stack) r.expr)
            ((c.past l).advance.past r) := run_phrase r hgr hopen hr.2 ho hfr
      _ = run g rest (.have stack (.binary op.text l.expr r.expr op.position))
            ((c.past l).advance.past r).leave.count :=
          run_have_right hr.1 (by simp only [Cursor.past, Cursor.advance]; omega)
      _ = run g rest (.have stack (Phrase.binary l op r).expr) (c.past (.binary l op r)) :=
          congrArg _ (c.past_binary l r op)
  | .group a e b, ⟨hopening, hclosing, hopen, he⟩ =>
    simp only [Phrase.nesting, Phrase.expr] at hd hn
    have hfit : Fits g.limits c.enter.advance e := by
      refine ⟨?_, ?_, ha⟩
      · simp only [Cursor.enter, Cursor.advance]; omega
      · simp only [Cursor.enter, Cursor.advance]; omega
    have hkb : b.kind ≠ .operator := by rw [Token.kind_of_isClosing hclosing]; decide
    have hb : b.isOpening = false := Token.isOpening_of_isClosing hclosing
    calc run g (a :: (e.tokens ++ [b]) ++ rest) (.want stack) c
        = run g (a :: (e.tokens ++ b :: rest)) (.want stack) c := by
          rw [List.cons_append, List.append_assoc, List.singleton_append]
      _ = run g (e.tokens ++ b :: rest) (.want (.group :: stack)) c.enter.advance :=
          run_group hopening (by omega)
      _ = run g (b :: rest) (.have (.group :: stack) e.expr) (c.enter.advance.past e) :=
          run_phrase e he hopen (takes_head?_of_kind_ne hkb _) hb hfit
      _ = run g rest (.have stack e.expr) (c.enter.advance.past e).leave.advance :=
          run_have_group hclosing
      _ = run g rest (.have stack (Phrase.group a e b).expr) (c.past (.group a e b)) :=
          congrArg _ (c.past_group a b e)
  | .nullary n a b, ⟨hk, hopening, hclosing⟩ =>
    simp only [Phrase.nesting, Phrase.expr, Expr.size, Expr.sizeAll] at hd hn
    calc run g (n :: a :: b :: rest) (.want stack) c
        = run g (b :: rest) (.opened n stack) c.enter.advance.advance :=
          run_call hk hopening (by omega)
      _ = run g rest (.have stack (.call n.text [] n.position))
            c.enter.advance.advance.advance.count :=
          run_opened_closing hclosing (by simp only [Cursor.enter, Cursor.advance]; omega)
  | .call n a args, ⟨hk, hopening, hargs⟩ =>
    simp only [Phrase.nesting, Phrase.expr, Expr.size] at hd hn
    simp only [Phrase.arities, List.forall_mem_cons] at ha
    have hfit : FitsArguments g.limits c.enter.advance.advance 0 args := by
      refine ⟨?_, ?_, ha.2, by simpa using ha.1⟩
      · simp only [Cursor.enter, Cursor.advance]; omega
      · simp only [Cursor.enter, Cursor.advance]; omega
    obtain ⟨t, ts, hts, ht⟩ := args.exists_tokens_eq_cons hargs
    calc run g (n :: a :: (args.tokens ++ rest)) (.want stack) c
        = run g (args.tokens ++ rest) (.opened n stack) c.enter.advance.advance :=
          run_call hk hopening (by omega)
      _ = run g (args.tokens ++ rest) (.want (.arg n [] :: stack)) c.enter.advance.advance := by
          rw [hts, List.cons_append, run_opened ht]
      _ = run g rest (.have stack (.call n.text ([] ++ args.exprs) n.position))
            (c.enter.advance.advance.pastArguments args) := run_arguments args hargs hfit
      _ = run g rest (.have stack (Phrase.call n a args).expr) (c.past (.call n a args)) :=
          congrArg _ (c.past_call n a args)

/-- The parser reads the arguments of a call, and stands behind the call. -/
theorem run_arguments (args : Arguments) (hargs : args.Grammatical g.precedence)
    {n : Token} {before : List Expr} {stack : List Frame} {rest : List Token} {c : Cursor}
    (hf : FitsArguments g.limits c before.length args) :
    run g (args.tokens ++ rest) (.want (.arg n before :: stack)) c
      = run g rest (.have stack (.call n.text (before ++ args.exprs) n.position))
          (c.pastArguments args) := by
  obtain ⟨hd, hn, ha, hl⟩ := hf
  match args, hargs with
  | .last e b, ⟨hclosing, hopen, he⟩ =>
    simp only [Arguments.nesting, Arguments.exprs, Expr.sizeAll, Arguments.length] at hd hn hl
    have hfit : Fits g.limits c e := ⟨by omega, by omega, ha⟩
    have hkb : b.kind ≠ .operator := by rw [Token.kind_of_isClosing hclosing]; decide
    have hb : b.isOpening = false := Token.isOpening_of_isClosing hclosing
    calc run g (e.tokens ++ [b] ++ rest) (.want (.arg n before :: stack)) c
        = run g (e.tokens ++ b :: rest) (.want (.arg n before :: stack)) c := by
          rw [List.append_assoc, List.singleton_append]
      _ = run g (b :: rest) (.have (.arg n before :: stack) e.expr) (c.past e) :=
          run_phrase e he hopen (takes_head?_of_kind_ne hkb _) hb hfit
      _ = run g rest (.have stack (.call n.text (before ++ [e.expr]) n.position))
            (c.past e).leave.advance.count :=
          run_have_lastArg hclosing (by omega) (by simp only [Cursor.past]; omega)
      _ = run g rest (.have stack (.call n.text (before ++ (Arguments.last e b).exprs) n.position))
            (c.pastArguments (.last e b)) := congrArg _ (c.pastArguments_last e b)
  | .more e comma others, ⟨hk, hopen, he, hothers⟩ =>
    simp only [Arguments.nesting, Arguments.exprs, Expr.sizeAll, Arguments.length] at hd hn hl
    simp only [Arguments.arities, List.mem_append] at ha
    have hfit : Fits g.limits c e := ⟨by omega, by omega, fun n h => ha n (Or.inl h)⟩
    have hfits : FitsArguments g.limits (c.past e).leave.advance (before ++ [e.expr]).length
        others := by
      refine ⟨?_, ?_, fun n h => ha n (Or.inr h), ?_⟩
      · simp only [Cursor.past, Cursor.leave, Cursor.advance]; omega
      · simp only [Cursor.past, Cursor.leave, Cursor.advance]; omega
      · rw [List.length_append, List.length_singleton]; omega
    have hko : comma.kind ≠ .operator := by rw [hk]; decide
    have hco : comma.isOpening = false := Token.isOpening_eq_false (by rw [hk]; decide)
    calc run g (e.tokens ++ comma :: others.tokens ++ rest) (.want (.arg n before :: stack)) c
        = run g (e.tokens ++ comma :: (others.tokens ++ rest)) (.want (.arg n before :: stack))
            c := by rw [List.append_assoc, List.cons_append]
      _ = run g (comma :: (others.tokens ++ rest)) (.have (.arg n before :: stack) e.expr)
            (c.past e) := run_phrase e he hopen (takes_head?_of_kind_ne hko _) hco hfit
      _ = run g (others.tokens ++ rest) (.want (.arg n (before ++ [e.expr]) :: stack))
            (c.past e).leave.advance := run_have_arg hk (by omega)
      _ = run g rest
            (.have stack (.call n.text (before ++ [e.expr] ++ others.exprs) n.position))
            ((c.past e).leave.advance.pastArguments others) := run_arguments others hothers hfits
      _ = run g rest
            (.have stack (.call n.text (before ++ (Arguments.more e comma others).exprs) n.position))
            (c.pastArguments (.more e comma others)) := by
          rw [List.append_assoc, List.singleton_append, c.pastArguments_more e comma others]
          rfl
end

end Parser

end Reckon
