import Reckon.Proofs.Expr.Reading
import Reckon.Proofs.Outcome
/-
  What the parser accepts is grammatical, whatever the limits are. While it reads, the tokens read
  so far are those of the frames that are still open (`Pending`) and of the operand behind them
  (`Reads`), and every frame holds a grammatical phrase that its operator may follow. `keeps_step`
  says that a step keeps this, `of_run_eq_done` what it gives at the end: the tokens in front of
  the cursor are those of a whole grammatical phrase, the answer is its tree, and no operator on
  its right side would have taken the token behind it.
-/
namespace Reckon

/-! ## Arguments from a list -/

/-- Arguments with the tokens behind them, and the last one. -/
def Arguments.ofList : List (Phrase × Token) → Phrase → Token → Arguments
  | [], e, b => .last e b
  | (x, comma) :: xs, e, b => .more x comma (ofList xs e b)

/-- The tokens of arguments that are followed by a comma each. -/
def Arguments.tokensBefore (xs : List (Phrase × Token)) : List Token :=
  xs.flatMap fun x => x.1.tokens ++ [x.2]

theorem Arguments.tokens_ofList (xs : List (Phrase × Token)) (e : Phrase) (b : Token) :
    (ofList xs e b).tokens = tokensBefore xs ++ (e.tokens ++ [b]) := by
  induction xs with
  | nil => rfl
  | cons x xs ih => simp [ofList, Arguments.tokens, tokensBefore, ih]

theorem Arguments.exprs_ofList (xs : List (Phrase × Token)) (e : Phrase) (b : Token) :
    (ofList xs e b).exprs = xs.map (·.1.expr) ++ [e.expr] := by
  induction xs with
  | nil => rfl
  | cons x xs ih => simp [ofList, Arguments.exprs, ih]

theorem Arguments.grammatical_ofList {p : Precedence} {xs : List (Phrase × Token)} {e : Phrase}
    {b : Token} (hxs : ∀ x ∈ xs, x.1.Whole p ∧ x.2.kind = .comma) (he : e.Whole p)
    (hb : b.isClosing = true) : (ofList xs e b).Grammatical p := by
  induction xs with
  | nil => exact ⟨hb, he.openAt, he.grammatical⟩
  | cons x xs ih =>
    obtain ⟨hx, hk⟩ := hxs x (List.mem_cons_self ..)
    exact ⟨hk, hx.openAt, hx.grammatical, ih fun y hy => hxs y (List.mem_cons_of_mem _ hy)⟩

namespace Parser

/-! ## What has been read -/

/-- Frames that wait for an operand, and the tokens that were read for them. -/
inductive Pending (p : Precedence) : List Frame → List Token → Prop
  | start : Pending p [] []
  | right {stack : List Frame} {read : List Token} (l : Phrase) (op : Token) (level : Level)
      (below : Pending p stack read) (grammatical : l.Grammatical p)
      (openAt : l.OpenAt p (floor stack)) (kind : op.kind = .operator)
      (continues : p.continues (floor stack) op.text = .ok (some level))
      (leaves : l.LeavesTo p op.text) :
      Pending p (.right l.expr op level :: stack) (read ++ l.tokens ++ [op])
  | unary {stack : List Frame} {read : List Token} (op : Token) (level : Level)
      (below : Pending p stack read) (kind : op.kind = .operator)
      (unaryLevel : p.unaryLevel op.text = some level) :
      Pending p (.unary op level :: stack) (read ++ [op])
  | group {stack : List Frame} {read : List Token} (a : Token) (below : Pending p stack read)
      (opening : a.isOpening = true) : Pending p (.group :: stack) (read ++ [a])
  | arg {stack : List Frame} {read : List Token} (n a : Token) (before : List (Phrase × Token))
      (below : Pending p stack read) (kind : n.kind = .identifier) (opening : a.isOpening = true)
      (whole : ∀ x ∈ before, x.1.Whole p ∧ x.2.kind = .comma) :
      Pending p (.arg n (before.map (·.1.expr)) :: stack)
        (read ++ [n, a] ++ Arguments.tokensBefore before)

/-- A mode with the tokens that were read to come to it and the token that is next. -/
inductive Reads (p : Precedence) : Mode → List Token → Option Token → Prop
  | want {stack : List Frame} {read : List Token} {next : Option Token}
      (pending : Pending p stack read) : Reads p (.want stack) read next
  | called {stack : List Frame} {read : List Token} {next : Option Token} (n : Token)
      (pending : Pending p stack read) (kind : n.kind = .identifier)
      (opening : next.any Token.isOpening = true) :
      Reads p (.called n stack) (read ++ [n]) next
  | opened {stack : List Frame} {read : List Token} {next : Option Token} (n a : Token)
      (pending : Pending p stack read) (kind : n.kind = .identifier)
      (opening : a.isOpening = true) : Reads p (.opened n stack) (read ++ [n, a]) next
  | operand {stack : List Frame} {read : List Token} {next : Option Token} (e : Phrase)
      (pending : Pending p stack read) (grammatical : e.Grammatical p)
      (openAt : e.OpenAt p (floor stack)) (closed : e.rightSpine p = []) :
      Reads p (.have stack e.expr) (read ++ e.tokens) next

/-- What a step comes to, in front of `next` and with `after` behind it, when `read` was read: one
token more, or a whole phrase. -/
def Step.Keeps (g : Grammar) (read : List Token) (next after : Option Token) (index : Nat) :
    Step → Prop
  | .go mode c =>
    c.index = index + 1 ∧ ∃ t, next = some t ∧ Reads g.precedence mode (read ++ [t]) after
  | .done e c =>
    c.index = index ∧ ∃ f : Phrase, f.Whole g.precedence ∧ f.expr = e ∧ f.tokens = read
      ∧ takes g Precedence.lowest next = .ok none
      ∧ ∀ level ∈ f.rightSpine g.precedence, takes g level next = .ok none
  | .fail .. => True
  | .refused .. => True

variable {g : Grammar} {read : List Token} {next after : Option Token}

theorem keeps_make {c : Cursor} {k : Cursor → Step} {index : Nat}
    (h : (k c.count).Keeps g read next after index) :
    (make g c k).Keeps g read next after index := by
  unfold make
  split
  · exact h
  · trivial

/-- An operator that goes on is the next token, with the level that goes on. -/
theorem of_takes_eq_some {floor level : Level} {t : Token}
    (h : takes g floor next = .ok (some (t, level))) :
    next = some t ∧ t.kind = .operator
      ∧ g.precedence.continues floor t.text = .ok (some level) := by
  cases next with
  | none => simp [takes] at h
  | some u =>
    rw [takes_some] at h
    by_cases hk : u.kind = .operator
    · rw [if_pos hk] at h
      obtain ⟨r, hc, hr⟩ := exists_of_map_eq_ok h
      obtain ⟨l, rfl, heq⟩ := Option.map_eq_some_iff.1 hr
      obtain ⟨rfl, rfl⟩ := Prod.mk.inj heq
      exact ⟨rfl, hk, hc⟩
    · rw [if_neg hk] at h
      exact absurd h (by simp)

/-- An operator that is passed over is left alone. -/
theorem leaves_of_takes {floor : Level} {t : Token} (hk : t.kind = .operator)
    (h : takes g floor (some t) = .ok none) : g.precedence.Leaves floor t.text := by
  rw [takes_some, if_pos hk] at h
  obtain ⟨r, hc, hr⟩ := exists_of_map_eq_ok h
  rw [Option.map_eq_none_iff.1 hr] at hc
  exact hc

/-! ## A step -/

/-- The operand of a frame either waits for a right operand, or the frame is completed. -/
theorem keeps_settle_of_passes {stack : List Frame} {e : Phrase} {c : Cursor}
    (h : Pending g.precedence stack read) (he : e.Grammatical g.precedence)
    (hopen : e.OpenAt g.precedence (floor stack))
    (hright : ∀ level ∈ e.rightSpine g.precedence, takes g level next = .ok none)
    (hnone : takes g (floor stack) next = .ok none →
      (settle g next stack e.expr c).Keeps g (read ++ e.tokens) next after c.index) :
    (settle g next stack e.expr c).Keeps g (read ++ e.tokens) next after c.index := by
  cases ht : takes g (floor stack) next with
  | error f =>
    rw [settle_of_error ht]
    trivial
  | ok r =>
    cases r with
    | none => exact hnone ht
    | some x =>
      obtain ⟨t, level⟩ := x
      obtain ⟨rfl, hk, hc⟩ := of_takes_eq_some ht
      rw [settle_of_takes ht]
      refine ⟨rfl, t, rfl, Reads.want ?_⟩
      refine Pending.right e t level h he hopen hk hc fun x hx => ?_
      exact leaves_of_takes hk (hright x hx)

/-- A group is completed at a closing parenthesis. -/
theorem keeps_settle_group {stack : List Frame} {a : Token} {e : Phrase}
    (below : Pending g.precedence stack read) (ha : a.isOpening = true)
    (he : e.Whole g.precedence) (ht : takes g Precedence.lowest next = .ok none) (c : Cursor) :
    (settle g next (.group :: stack) e.expr c).Keeps g (read ++ [a] ++ e.tokens) next after
      c.index := by
  cases next with
  | none =>
    rw [settle_group_none]
    trivial
  | some b =>
    rw [settle_group ht]
    by_cases hb : b.isClosing = true
    · rw [if_pos hb]
      have hgram : (Phrase.group a e b).Grammatical g.precedence :=
        ⟨ha, hb, he.openAt, he.grammatical⟩
      have hreads : Reads g.precedence (.have stack (Phrase.group a e b).expr)
          (read ++ (Phrase.group a e b).tokens) after :=
        .operand _ below hgram (List.forall_mem_nil _) rfl
      exact ⟨rfl, b, rfl, by simpa [Phrase.tokens, Phrase.expr] using hreads⟩
    · rw [if_neg hb]
      trivial

/-- An argument is completed at a comma, and a call at a closing parenthesis. -/
theorem keeps_settle_arg {stack : List Frame} {n a : Token} {before : List (Phrase × Token)}
    {e : Phrase} (below : Pending g.precedence stack read) (hn : n.kind = .identifier)
    (ha : a.isOpening = true) (hbefore : ∀ x ∈ before, x.1.Whole g.precedence ∧ x.2.kind = .comma)
    (he : e.Whole g.precedence) (ht : takes g Precedence.lowest next = .ok none) (c : Cursor) :
    (settle g next (.arg n (before.map (·.1.expr)) :: stack) e.expr c).Keeps g
      (read ++ [n, a] ++ Arguments.tokensBefore before ++ e.tokens) next after c.index := by
  cases hc : g.limits.check .arguments ((before.map (·.1.expr)) ++ [e.expr]).length
      (some n.position) g.source with
  | error f =>
    rw [settle_arg_of_error ht hc]
    trivial
  | ok _ =>
    cases next with
    | none =>
      rw [settle_arg_none hc]
      trivial
    | some b =>
      rw [settle_arg ht hc]
      by_cases hb : b.isClosing = true
      · rw [if_pos hb]
        apply keeps_make
        have hgram : (Phrase.call n a (.ofList before e b)).Grammatical g.precedence :=
          ⟨hn, ha, Arguments.grammatical_ofList hbefore he hb⟩
        have hreads : Reads g.precedence (.have stack (Phrase.call n a (.ofList before e b)).expr)
            (read ++ (Phrase.call n a (.ofList before e b)).tokens) after :=
          .operand _ below hgram (List.forall_mem_nil _) rfl
        refine ⟨rfl, b, rfl, ?_⟩
        simpa [Phrase.tokens, Phrase.expr, Arguments.tokens_ofList, Arguments.exprs_ofList]
          using hreads
      · rw [if_neg hb]
        by_cases hk : b.kind = .comma
        · rw [if_pos hk]
          have hpending : Pending g.precedence
              (.arg n ((before ++ [(e, b)]).map (·.1.expr)) :: stack)
              (read ++ [n, a] ++ Arguments.tokensBefore (before ++ [(e, b)])) := by
            refine .arg n a (before ++ [(e, b)]) below hn ha fun x hx => ?_
            rcases List.mem_append.1 hx with hx | hx
            · exact hbefore x hx
            · rw [List.mem_singleton] at hx
              subst hx
              exact ⟨he, hk⟩
          refine ⟨rfl, b, rfl, .want ?_⟩
          simpa [Arguments.tokensBefore] using hpending
        · rw [if_neg hk]
          trivial

/-- Completing frames keeps what has been read. The operators of the frames that are completed
stand on the right side of the operand, and all of them pass the next token over. -/
theorem keeps_settle {stack : List Frame} (h : Pending g.precedence stack read) (e : Phrase)
    (c : Cursor) (he : e.Grammatical g.precedence) (hopen : e.OpenAt g.precedence (floor stack))
    (hright : ∀ level ∈ e.rightSpine g.precedence, takes g level next = .ok none) :
    (settle g next stack e.expr c).Keeps g (read ++ e.tokens) next after c.index := by
  induction h generalizing e c with
  | start =>
    refine keeps_settle_of_passes .start he hopen hright fun ht => ?_
    rw [settle_nil ht]
    exact ⟨rfl, e, ⟨hopen, he⟩, rfl, rfl, ht, hright⟩
  | @right stack read l op level below hl hlopen hk hc hleave ih =>
    refine keeps_settle_of_passes (.right l op level below hl hlopen hk hc hleave) he hopen hright
      fun (ht : takes g level next = .ok none) => ?_
    have hlevel := Precedence.binaryLevel_of_continues hc
    have hgram : (Phrase.binary l op e).Grammatical g.precedence :=
      ⟨hk, ⟨level, hlevel, hopen⟩, hleave, hl, he⟩
    have hside : (Phrase.binary l op e).OpenAt g.precedence (floor stack) := by
      intro q hq
      rcases List.mem_cons.1 hq with rfl | hq
      · exact ⟨level, hc⟩
      · exact hlopen q hq
    have hlevels : ∀ x ∈ (Phrase.binary l op e).rightSpine g.precedence,
        takes g x next = .ok none := by
      rw [Phrase.rightSpine_binary hlevel, List.forall_mem_cons]
      exact ⟨ht, hright⟩
    have hkeep := ih (.binary l op e) c.leave.count hgram hside hlevels
    rw [settle_right ht]
    apply keeps_make
    simpa [Phrase.tokens, Phrase.expr, Cursor.leave, Cursor.count] using hkeep
  | @unary stack read op level below hk hl ih =>
    refine keeps_settle_of_passes (.unary op level below hk hl) he hopen hright
      fun (ht : takes g level next = .ok none) => ?_
    have hgram : (Phrase.unary op e).Grammatical g.precedence := ⟨hk, ⟨level, hl, hopen⟩, he⟩
    have hside : (Phrase.unary op e).OpenAt g.precedence (floor stack) :=
      List.forall_mem_nil _
    have hlevels : ∀ x ∈ (Phrase.unary op e).rightSpine g.precedence,
        takes g x next = .ok none := by
      rw [Phrase.rightSpine_unary hl, List.forall_mem_cons]
      exact ⟨ht, hright⟩
    have hkeep := ih (.unary op e) c.leave.count hgram hside hlevels
    rw [settle_unary ht]
    apply keeps_make
    simpa [Phrase.tokens, Phrase.expr, Cursor.leave, Cursor.count] using hkeep
  | group a below ha =>
    refine keeps_settle_of_passes (.group a below ha) he hopen hright fun ht => ?_
    exact keeps_settle_group below ha ⟨hopen, he⟩ ht c
  | arg n a before below hn ha hbefore =>
    refine keeps_settle_of_passes (.arg n a before below hn ha hbefore) he hopen hright
      fun ht => ?_
    exact keeps_settle_arg below hn ha hbefore ⟨hopen, he⟩ ht c

/-- The first token of an operand opens a frame or is an operand by itself. -/
theorem keeps_startOperand {stack : List Frame} (h : Pending g.precedence stack read) (t : Token)
    (c : Cursor) : (startOperand g t after stack c).Keeps g read (some t) after c.index := by
  unfold startOperand
  by_cases hm : mayEnter g c = true
  · rw [hm]
    simp only [Bool.not_true, Bool.false_eq_true, if_false]
    cases hu : unaryLevel? g t with
    | some level =>
      unfold unaryLevel? at hu
      by_cases hk : t.kind = .operator
      · rw [if_pos hk] at hu
        exact ⟨rfl, t, rfl, .want (.unary t level h hk hu)⟩
      · rw [if_neg hk] at hu
        exact absurd hu (by simp)
    | none =>
      by_cases ho : t.isOpening = true
      · simp only [ho, if_true]
        exact ⟨rfl, t, rfl, .want (.group t h ho)⟩
      · simp only [ho, Bool.false_eq_true, if_false]
        cases hk : t.kind with
        | identifier =>
          by_cases ha : after.any Token.isOpening = true
          · simp only [ha, if_true]
            exact ⟨rfl, t, rfl, .called t h hk ha⟩
          · simp only [ha, Bool.false_eq_true, if_false]
            apply keeps_make
            exact ⟨rfl, t, rfl, .operand (.name t) h hk (List.forall_mem_nil _) rfl⟩
        | constant =>
          apply keeps_make
          exact ⟨rfl, t, rfl, .operand (.constant t) h hk (List.forall_mem_nil _) rfl⟩
        | parenthesis => trivial
        | operator => trivial
        | comma => trivial
  · rw [Bool.not_eq_true] at hm
    rw [hm]
    trivial

/-- A step keeps what has been read. -/
theorem keeps_step {mode : Mode} {t : Token} (h : Reads g.precedence mode read (some t))
    (c : Cursor) : (step g t after mode c).Keeps g read (some t) after c.index := by
  cases h with
  | want pending => exact keeps_startOperand pending t c
  | @called stack read _ n pending hk ho =>
    refine ⟨rfl, t, rfl, ?_⟩
    rw [List.append_assoc]
    exact .opened n t pending hk ho
  | @opened stack read _ n a pending hk ha =>
    rw [step]
    by_cases hb : t.isClosing = true
    · rw [if_pos hb]
      apply keeps_make
      have hreads : Reads g.precedence (.have stack (Phrase.nullary n a t).expr)
          (read ++ (Phrase.nullary n a t).tokens) after :=
        .operand _ pending ⟨hk, ha, hb⟩ (List.forall_mem_nil _) rfl
      refine ⟨rfl, t, rfl, ?_⟩
      simpa [Phrase.tokens, Phrase.expr] using hreads
    · rw [if_neg hb]
      have harg := Pending.arg n a [] pending hk ha (List.forall_mem_nil _)
      rw [Arguments.tokensBefore, List.flatMap_nil, List.append_nil] at harg
      exact keeps_startOperand harg t c
  | operand e pending he hopen hclosed =>
    exact keeps_settle pending e c he hopen (by rw [hclosed]; exact List.forall_mem_nil _)

/-! ## A run -/

/-- A finished expression is a whole phrase in front of the cursor. No operator on its right side
takes the token behind it, nor does it go on at the lowest level. -/
theorem of_run_eq_done {ts : List Token} {mode : Mode} {c c' : Cursor} {e : Expr}
    (h : Reads g.precedence mode read ts.head?) (hrun : run g ts mode c = .done e c') :
    ∃ (f : Phrase) (rest : List Token), f.Whole g.precedence ∧ f.expr = e
      ∧ read ++ ts = f.tokens ++ rest ∧ c'.index + rest.length = c.index + ts.length
      ∧ takes g Precedence.lowest rest.head? = .ok none
      ∧ ∀ level ∈ f.rightSpine g.precedence, takes g level rest.head? = .ok none := by
  induction ts generalizing read mode c with
  | nil =>
    cases h with
    | want => exact absurd hrun (by simp [run, finish])
    | called => exact absurd hrun (by simp [run, finish])
    | opened => exact absurd hrun (by simp [run, finish])
    | operand e pending he hopen hclosed =>
      have hkeep : (settle g none _ e.expr c).Keeps g _ none none c.index :=
        keeps_settle pending e c he hopen (by rw [hclosed]; exact List.forall_mem_nil _)
      rw [run, finish] at hrun
      rw [hrun] at hkeep
      obtain ⟨hi, f, hf, rfl, hts, ht, hs⟩ := hkeep
      exact ⟨f, [], hf, rfl, by rw [hts], by rw [hi], ht, hs⟩
  | cons t ts ih =>
    have hkeep : (step g t ts.head? mode c).Keeps g read (some t) ts.head? c.index :=
      keeps_step h c
    rw [run] at hrun
    cases hs : step g t ts.head? mode c with
    | go mode' c₁ =>
      rw [hs] at hkeep hrun
      obtain ⟨hi, t', ht', hreads⟩ := hkeep
      obtain rfl : t = t' := Option.some.inj ht'
      obtain ⟨f, rest, hf, he, hts, hlen, ht, hr⟩ := ih hreads hrun
      refine ⟨f, rest, hf, he, ?_, ?_, ht, hr⟩
      · rw [← hts, List.append_assoc, List.singleton_append]
      · rw [hlen, hi, List.length_cons]
        omega
    | done e' c₁ =>
      rw [hs] at hkeep hrun
      simp only [Step.done.injEq] at hrun
      obtain ⟨rfl, rfl⟩ := hrun
      obtain ⟨hi, f, hf, rfl, hts, ht, hr⟩ := hkeep
      exact ⟨f, t :: ts, hf, rfl, by rw [hts], by rw [hi], ht, hr⟩
    | fail =>
      rw [hs] at hrun
      exact absurd hrun (by simp)
    | refused =>
      rw [hs] at hrun
      exact absurd hrun (by simp)

end Parser

end Reckon
