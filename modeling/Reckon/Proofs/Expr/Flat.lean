import Reckon.Proofs.Expr.Complaints
/-
  What is an expression does not depend on how tightly operators bind. Without their levels,
  operators are just operators:

    Expression ::= Operand { operator Operand }
    Operand    ::= operator Operand | Primary
    Primary    ::= constant | name | name "(" [ Expression { "," Expression } ] ")"
                 | "(" Expression ")"

  where an operator between operands is one that has a binary level, and one in front of an operand
  one that has a unary level. As long as every operator between two operands goes on at the lowest
  level, none is left over by a whole expression, and the parser accepts exactly these
  (`Parser.parse_iff_flat`).

  To read one more operator and operand behind a phrase is to graft them on its right side. The
  innermost operator there whose level lets the new one go on gives up its right operand to it; if
  all leave it alone, the whole phrase becomes its left operand (`Phrase.graft`). The left side of a
  phrase does not change when something is grafted on, so what the phrase is an operand of does not
  mind.
-/
namespace Reckon

/-- A token that can stand between two operands. -/
def Precedence.IsBinary (p : Precedence) (t : Token) : Prop :=
  t.kind = .operator ∧ ∃ level, p.binaryLevel t.text = some level

/-- A token that can stand in front of an operand. -/
def Precedence.IsUnary (p : Precedence) (t : Token) : Prop :=
  t.kind = .operator ∧ ∃ level, p.unaryLevel t.text = some level

namespace Flat

/-! ## The grammar -/

mutual
inductive Expression (p : Precedence) : List Token → Prop
  | operand {ts : List Token} : Operand p ts → Expression p ts
  | step {ts us : List Token} {op : Token} : Expression p ts → p.IsBinary op → Operand p us →
      Expression p (ts ++ op :: us)

inductive Operand (p : Precedence) : List Token → Prop
  | primary {ts : List Token} : Primary p ts → Operand p ts
  | step {ts : List Token} {op : Token} : p.IsUnary op → Operand p ts → Operand p (op :: ts)

inductive Primary (p : Precedence) : List Token → Prop
  | constant {t : Token} : t.kind = .constant → Primary p [t]
  | name {t : Token} : t.kind = .identifier → Primary p [t]
  | nullary {n a b : Token} : n.kind = .identifier → a.isOpening = true → b.isClosing = true →
      Primary p [n, a, b]
  | call {n a b : Token} {ts : List Token} : n.kind = .identifier → a.isOpening = true →
      Expressions p ts → b.isClosing = true → Primary p (n :: a :: (ts ++ [b]))
  | group {a b : Token} {ts : List Token} : a.isOpening = true → Expression p ts →
      b.isClosing = true → Primary p (a :: (ts ++ [b]))

/-- Expressions with commas between them. -/
inductive Expressions (p : Precedence) : List Token → Prop
  | last {ts : List Token} : Expression p ts → Expressions p ts
  | more {ts us : List Token} {comma : Token} : Expression p ts → comma.kind = .comma →
      Expressions p us → Expressions p (ts ++ comma :: us)
end

end Flat

/-! ## Grafting -/

namespace Precedence

variable {p : Precedence} {op : Token}

/-- At a whole number an operator goes on, or it is left alone. -/
theorem takes_or_leaves (hp : p.Integral) (hop : p.IsBinary op) (m : Int) :
    p.Takes (.int m) op.text ∨ p.Leaves (.int m) op.text := by
  obtain ⟨level, hlevel⟩ := hop.2
  obtain ⟨n, rfl⟩ := hp.binary op.text level hlevel
  rw [takes_int_iff hp, leaves_int_iff hlevel]
  by_cases hn : m < n
  · exact Or.inl ⟨n, hlevel, Or.inl hn⟩
  · cases hra : p.isRightAssociative op.text with
    | true => exact Or.inl ⟨n, hlevel, Or.inr hra⟩
    | false => exact Or.inr ⟨by omega, rfl⟩

theorem not_leaves_of_takes {floor : Level} (h : p.Takes floor op.text) :
    ¬ p.Leaves floor op.text := by
  obtain ⟨level, ht⟩ := h
  intro hl
  rw [Leaves, ht] at hl
  exact absurd hl (by simp)

end Precedence

namespace Phrase

/-- A phrase with an operator and an operand behind it, and the same left side. -/
structure Graft (p : Precedence) (f : Phrase) (op : Token) (u g : Phrase) : Prop where
  tokens : g.tokens = f.tokens ++ op :: u.tokens
  leftSpine : g.leftSpine = f.leftSpine
  grammatical : g.Grammatical p

variable {p : Precedence} {op : Token} {u : Phrase}

/-- An operand that is closed to the left is open at any level. -/
theorem openAt_of_leftSpine {floor : Level} (h : u.leftSpine = []) : u.OpenAt p floor := by
  intro q hq
  rw [h] at hq
  exact absurd hq List.not_mem_nil

/-- What stands behind the operand of an operator belongs to the operand, or neither the operand nor
the operator wants it. -/
theorem graft_operand (hp : p.Integral) (hop : p.IsBinary op) (hu : u.Grammatical p)
    (hside : u.leftSpine = []) {e : Phrase} (he : e.Grammatical p) {m : Int}
    (hopen : e.OpenAt p (.int m)) (h : e.LeavesTo p op.text ∨ ∃ g, e.Graft p op u g) :
    (p.Leaves (.int m) op.text ∧ e.LeavesTo p op.text)
      ∨ ∃ g : Phrase, g.tokens = e.tokens ++ op :: u.tokens ∧ g.OpenAt p (.int m)
        ∧ g.Grammatical p := by
  rcases h with hleaves | ⟨g, hg⟩
  · rcases Precedence.takes_or_leaves hp hop m with ht | hl
    · obtain ⟨level, hlevel⟩ := hop.2
      refine Or.inr ⟨.binary e op u, rfl, ?_, hop.1, ⟨level, hlevel, ?_⟩, hleaves, he, hu⟩
      · exact List.forall_mem_cons.2 ⟨ht, hopen⟩
      · exact openAt_of_leftSpine hside
    · exact Or.inl ⟨hl, hleaves⟩
  · refine Or.inr ⟨g, hg.tokens, ?_, hg.grammatical⟩
    rw [OpenAt, hg.leftSpine]
    exact hopen

/-- An operator and an operand are grafted on the right side of a phrase, or every operator there
leaves the new one alone. -/
theorem graft (hp : p.Integral) (hop : p.IsBinary op) (hu : u.Grammatical p)
    (hside : u.leftSpine = []) (f : Phrase) (hf : f.Grammatical p) :
    f.LeavesTo p op.text ∨ ∃ g, f.Graft p op u g := by
  match f, hf with
  | .constant _, _ => exact Or.inl (List.forall_mem_nil _)
  | .name _, _ => exact Or.inl (List.forall_mem_nil _)
  | .group _ _ _, _ => exact Or.inl (List.forall_mem_nil _)
  | .nullary _ _ _, _ => exact Or.inl (List.forall_mem_nil _)
  | .call _ _ _, _ => exact Or.inl (List.forall_mem_nil _)
  | .unary o e, ⟨hk, ⟨level, hlevel, hopen⟩, he⟩ =>
    obtain ⟨m, rfl⟩ := hp.unary o.text level hlevel
    rcases graft_operand hp hop hu hside he hopen (graft hp hop hu hside e he) with
      ⟨hl, hleaves⟩ | ⟨g, htokens, hopen', hg⟩
    · left
      rw [LeavesTo, rightSpine_unary hlevel]
      exact List.forall_mem_cons.2 ⟨hl, hleaves⟩
    · refine Or.inr ⟨.unary o g, ?_, rfl, hk, ⟨.int m, hlevel, hopen'⟩, hg⟩
      rw [Phrase.tokens, htokens]
      rfl
  | .binary l o r, ⟨hk, ⟨level, hlevel, hopen⟩, hleft, hl, hr⟩ =>
    obtain ⟨m, rfl⟩ := hp.binary o.text level hlevel
    rcases graft_operand hp hop hu hside hr hopen (graft hp hop hu hside r hr) with
      ⟨hlow, hleaves⟩ | ⟨g, htokens, hopen', hg⟩
    · left
      rw [LeavesTo, rightSpine_binary hlevel]
      exact List.forall_mem_cons.2 ⟨hlow, hleaves⟩
    · refine Or.inr ⟨.binary l o g, ?_, rfl, hk, ⟨.int m, hlevel, hopen'⟩, hleft, hl, hg⟩
      rw [Phrase.tokens, Phrase.tokens, htokens, List.append_assoc]
      rfl

/-- A whole phrase with one more operator and operand is a whole phrase, where every operator goes
on at the lowest level. -/
theorem Whole.exists_graft (hp : p.Integral) (hr : p.Raised) (hop : p.IsBinary op)
    (hu : u.Grammatical p) (hside : u.leftSpine = []) {f : Phrase} (hf : f.Whole p) :
    ∃ g : Phrase, g.tokens = f.tokens ++ op :: u.tokens ∧ g.Whole p := by
  have hgraft := graft hp hop hu hside f hf.grammatical
  rcases graft_operand hp hop hu hside hf.grammatical (m := 0) hf.openAt hgraft with
    ⟨hl, -⟩ | ⟨g, htokens, hopen, hg⟩
  · obtain ⟨level, hlevel⟩ := hop.2
    exact absurd hl (Precedence.not_leaves_of_takes (hr.takes hlevel))
  · exact ⟨g, htokens, hopen, hg⟩

end Phrase

namespace Flat

variable {p : Precedence}

/-! ## From derivations to phrases -/

mutual
theorem Expression.exists_phrase (hp : p.Integral) (hr : p.Raised) {ts : List Token}
    (h : Expression p ts) : ∃ f : Phrase, f.tokens = ts ∧ f.Whole p := by
  match h with
  | .operand h =>
    obtain ⟨f, hts, hf, hside⟩ := Operand.exists_phrase hp hr h
    exact ⟨f, hts, Phrase.openAt_of_leftSpine hside, hf⟩
  | .step he hop hu =>
    obtain ⟨f, rfl, hf⟩ := Expression.exists_phrase hp hr he
    obtain ⟨u, rfl, hu, hside⟩ := Operand.exists_phrase hp hr hu
    exact hf.exists_graft hp hr hop hu hside

theorem Operand.exists_phrase (hp : p.Integral) (hr : p.Raised) {ts : List Token}
    (h : Operand p ts) : ∃ f : Phrase, f.tokens = ts ∧ f.Grammatical p ∧ f.leftSpine = [] := by
  match h with
  | .primary h => exact Primary.exists_phrase hp hr h
  | .step hop he =>
    obtain ⟨f, rfl, hf, hside⟩ := Operand.exists_phrase hp hr he
    obtain ⟨hk, level, hlevel⟩ := hop
    exact ⟨.unary _ f, rfl, ⟨hk, ⟨level, hlevel, Phrase.openAt_of_leftSpine hside⟩, hf⟩, rfl⟩

theorem Primary.exists_phrase (hp : p.Integral) (hr : p.Raised) {ts : List Token}
    (h : Primary p ts) : ∃ f : Phrase, f.tokens = ts ∧ f.Grammatical p ∧ f.leftSpine = [] := by
  match h with
  | .constant hk => exact ⟨.constant _, rfl, hk, rfl⟩
  | .name hk => exact ⟨.name _, rfl, hk, rfl⟩
  | .nullary hk ha hb => exact ⟨.nullary _ _ _, rfl, ⟨hk, ha, hb⟩, rfl⟩
  | .call hk ha hargs hb =>
    obtain ⟨args, hts, hg⟩ := Expressions.exists_arguments hp hr hargs _ hb
    exact ⟨.call _ _ args, by rw [Phrase.tokens, hts], ⟨hk, ha, hg⟩, rfl⟩
  | .group ha he hb =>
    obtain ⟨f, rfl, hf⟩ := Expression.exists_phrase hp hr he
    exact ⟨.group _ f _, rfl, ⟨ha, hb, hf.openAt, hf.grammatical⟩, rfl⟩

theorem Expressions.exists_arguments (hp : p.Integral) (hr : p.Raised) {ts : List Token}
    (h : Expressions p ts) (b : Token) (hb : b.isClosing = true) :
    ∃ args : Arguments, args.tokens = ts ++ [b] ∧ args.Grammatical p := by
  match h with
  | .last he =>
    obtain ⟨f, rfl, hf⟩ := Expression.exists_phrase hp hr he
    exact ⟨.last f b, rfl, hb, hf.openAt, hf.grammatical⟩
  | .more he hk hes =>
    obtain ⟨f, rfl, hf⟩ := Expression.exists_phrase hp hr he
    obtain ⟨args, hts, hg⟩ := Expressions.exists_arguments hp hr hes b hb
    refine ⟨.more f _ args, ?_, hk, hf.openAt, hf.grammatical, hg⟩
    rw [Arguments.tokens, hts, List.append_assoc, List.cons_append]
end

/-! ## From phrases to derivations -/

/-- An operator in front of an expression is one in front of its first operand. -/
theorem Expression.cons {op : Token} (hop : p.IsUnary op) {ts : List Token}
    (h : Expression p ts) : Expression p (op :: ts) := by
  match h with
  | .operand h => exact .operand (.step hop h)
  | .step he hbin hu => exact .step (Expression.cons hop he) hbin hu

/-- Expressions with an operator between them are one expression. -/
theorem Expression.append {op : Token} (hop : p.IsBinary op) {ts us : List Token}
    (hl : Expression p ts) (hr : Expression p us) : Expression p (ts ++ op :: us) := by
  match hr with
  | .operand hu => exact .step hl hop hu
  | .step he hbin hu =>
    have h := Expression.step (Expression.append hop hl he) hbin hu
    rwa [List.append_assoc, List.cons_append] at h

theorem expression_of_primary {ts : List Token} (h : Primary p ts) : Expression p ts :=
  .operand (.primary h)

mutual
/-- The tokens of a grammatical phrase are an expression, whatever the levels are. -/
theorem expression_of_grammatical (f : Phrase) (hf : f.Grammatical p) : Expression p f.tokens := by
  match f, hf with
  | .constant t, hf => exact expression_of_primary (.constant hf)
  | .name t, hf => exact expression_of_primary (.name hf)
  | .nullary n a b, hf => exact expression_of_primary (.nullary hf.1 hf.2.1 hf.2.2)
  | .group a e b, ⟨ha, hb, _, he⟩ =>
    exact expression_of_primary (.group ha (expression_of_grammatical e he) hb)
  | .call n a args, ⟨hk, ha, hargs⟩ =>
    obtain ⟨ts, b, hts, hb, hes⟩ := expressions_of_grammatical args hargs
    rw [Phrase.tokens, hts]
    exact expression_of_primary (.call hk ha hes hb)
  | .unary op e, ⟨hk, ⟨level, hlevel, _⟩, he⟩ =>
    exact (expression_of_grammatical e he).cons ⟨hk, level, hlevel⟩
  | .binary l op r, ⟨hk, ⟨level, hlevel, _⟩, _, hl, hr⟩ =>
    exact (expression_of_grammatical l hl).append ⟨hk, level, hlevel⟩
      (expression_of_grammatical r hr)

theorem expressions_of_grammatical (args : Arguments) (h : args.Grammatical p) :
    ∃ ts b, args.tokens = ts ++ [b] ∧ b.isClosing = true ∧ Expressions p ts := by
  match args, h with
  | .last e b, ⟨hb, _, he⟩ => exact ⟨e.tokens, b, rfl, hb, .last (expression_of_grammatical e he)⟩
  | .more e comma others, ⟨hk, _, he, ho⟩ =>
    obtain ⟨ts, b, hts, hb, hes⟩ := expressions_of_grammatical others ho
    refine ⟨e.tokens ++ comma :: ts, b, ?_, hb, .more (expression_of_grammatical e he) hk hes⟩
    rw [Arguments.tokens, hts, List.append_assoc, List.cons_append]
end

/-- Expressions are the tokens of whole phrases. -/
theorem expression_iff (hp : p.Integral) (hr : p.Raised) {ts : List Token} :
    Expression p ts ↔ ∃ f : Phrase, f.tokens = ts ∧ f.Whole p := by
  constructor
  · exact Expression.exists_phrase hp hr
  · rintro ⟨f, rfl, hf⟩
    exact expression_of_grammatical f hf.grammatical

end Flat

/-! ## Tables with the same operators -/

/-- Tables with levels for the same operators, whatever these levels are. -/
structure Precedence.SameOperators (p p' : Precedence) : Prop where
  unary (op : String) : (p.unaryLevel op).isSome = (p'.unaryLevel op).isSome
  binary (op : String) : (p.binaryLevel op).isSome = (p'.binaryLevel op).isSome

namespace Precedence.SameOperators

variable {p p' : Precedence}

theorem symm (h : p.SameOperators p') : p'.SameOperators p :=
  ⟨fun op => (h.unary op).symm, fun op => (h.binary op).symm⟩

theorem isUnary (h : p.SameOperators p') {t : Token} (ht : p.IsUnary t) : p'.IsUnary t := by
  refine ⟨ht.1, Option.isSome_iff_exists.1 ?_⟩
  rw [← h.unary]
  exact Option.isSome_iff_exists.2 ht.2

theorem isBinary (h : p.SameOperators p') {t : Token} (ht : p.IsBinary t) : p'.IsBinary t := by
  refine ⟨ht.1, Option.isSome_iff_exists.1 ?_⟩
  rw [← h.binary]
  exact Option.isSome_iff_exists.2 ht.2

mutual
theorem expression (h : p.SameOperators p') {ts : List Token} (he : Flat.Expression p ts) :
    Flat.Expression p' ts := by
  match he with
  | .operand hu => exact .operand (operand h hu)
  | .step he hop hu => exact .step (expression h he) (h.isBinary hop) (operand h hu)

theorem operand (h : p.SameOperators p') {ts : List Token} (hu : Flat.Operand p ts) :
    Flat.Operand p' ts := by
  match hu with
  | .primary hx => exact .primary (primary h hx)
  | .step hop hu => exact .step (h.isUnary hop) (operand h hu)

theorem primary (h : p.SameOperators p') {ts : List Token} (hx : Flat.Primary p ts) :
    Flat.Primary p' ts := by
  match hx with
  | .constant hk => exact .constant hk
  | .name hk => exact .name hk
  | .nullary hk ha hb => exact .nullary hk ha hb
  | .call hk ha hes hb => exact .call hk ha (expressions h hes) hb
  | .group ha he hb => exact .group ha (expression h he) hb

theorem expressions (h : p.SameOperators p') {ts : List Token} (hes : Flat.Expressions p ts) :
    Flat.Expressions p' ts := by
  match hes with
  | .last he => exact .last (expression h he)
  | .more he hk hes => exact .more (expression h he) hk (expressions h hes)
end

theorem expression_iff (h : p.SameOperators p') (ts : List Token) :
    Flat.Expression p ts ↔ Flat.Expression p' ts :=
  ⟨expression h, expression h.symm⟩

end Precedence.SameOperators

/-! ## The parser -/

namespace Parser

variable {p : Precedence} {l : Limits} {source : Option String} {ts : List Token}

/-- Within the limits the parser accepts expressions and complains about everything else. -/
theorem accepts_iff_expression (hp : p.Integral) (hr : p.Raised) (hl : ¬ Exceeds p l source ts) :
    (∃ e, (parse p l source ts).1 = .ok e) ↔ Flat.Expression p ts := by
  rw [Flat.expression_iff hp hr]
  constructor
  · rintro ⟨e, he⟩
    obtain ⟨f, hf, hts, -⟩ := of_parse_eq_ok he
    exact ⟨f, hts, hf⟩
  · rintro ⟨f, rfl, hf⟩
    exact ⟨f.expr, (parse_of_whole hf).resolve_right hl⟩

theorem exists_complaint (hp : p.Integral) (hr : p.Raised) (hl : ¬ Exceeds p l source ts)
    (hts : ¬ Flat.Expression p ts) :
    ∃ f : Failure, (parse p l source ts).1 = .error f ∧ f.IsComplaint source := by
  cases h : (parse p l source ts).1 with
  | ok e => exact absurd ((accepts_iff_expression hp hr hl).1 ⟨e, h⟩) hts
  | error f => exact ⟨f, rfl, isComplaint_of_parse hp hl h⟩

/-- For every table of whole numbers where operators between two operands have levels above zero or
group to the right: limits above the number of tokens are out of reach, and unless a limit is
exceeded, expressions are accepted and everything else is complained about. Another such table with
the same operators accepts the same tokens. -/
theorem parse_iff_flat (hp : p.Integral) (hr : p.Raised) (l : Limits) (source : Option String)
    (ts : List Token) :
    (l.Roomy (ts.length + 1) → ¬ Exceeds p l source ts)
      ∧ (¬ Exceeds p l source ts →
          ((∃ e, (parse p l source ts).1 = .ok e) ↔ Flat.Expression p ts)
          ∧ (¬ Flat.Expression p ts →
              ∃ f : Failure, (parse p l source ts).1 = .error f ∧ f.IsComplaint source))
      ∧ ∀ (p' : Precedence) (l' : Limits), p'.Integral → p'.Raised → p.SameOperators p' →
          ¬ Exceeds p l source ts → ¬ Exceeds p' l' source ts →
          ((∃ e, (parse p l source ts).1 = .ok e) ↔ ∃ e, (parse p' l' source ts).1 = .ok e) := by
  refine ⟨not_exceeds_of_roomy, fun hl => ⟨?_, ?_⟩, fun p' l' hp' hr' hsame hl hl' => ?_⟩
  · exact accepts_iff_expression hp hr hl
  · exact exists_complaint hp hr hl
  · rw [accepts_iff_expression hp hr hl, accepts_iff_expression hp' hr' hl']
    exact hsame.expression_iff ts

end Parser

/-! ## The same tokens under other levels -/

namespace Precedence

/-- The operators of `mixed` with levels that are in another order, and none that groups to the
right. -/
def reordered : Precedence where
  unary := [("-", .int 9)]
  binary := [("+", .int 5), ("*", .int 4)]
  rightAssociative := []

theorem integral_reordered : reordered.Integral :=
  integral_of_mem (by simp [reordered]) (by simp [reordered])

theorem raised_reordered : reordered.Raised :=
  raised_of_mem (by simp [reordered])

theorem raised_mixed : mixed.Raised :=
  raised_of_mem (List.forall_mem_cons.2 ⟨⟨-1, rfl, Or.inr rfl⟩,
    List.forall_mem_singleton.2 ⟨2, rfl, Or.inl (by decide)⟩⟩)

theorem sameOperators_mixed : mixed.SameOperators reordered := by
  constructor
  · intro op
    by_cases h : "-" = op <;> simp [unaryLevel, levelIn, Table.find?, mixed, reordered, h]
  · intro op
    by_cases h₁ : "+" = op
    · simp [binaryLevel, levelIn, Table.find?, mixed, reordered, h₁]
    · by_cases h₂ : "*" = op <;>
        simp [binaryLevel, levelIn, Table.find?, mixed, reordered, h₁, h₂]

end Precedence

/-- The tokens of `-f(a+b)*c`. -/
theorem Parser.parse_flat_mixed :
    let ts : List Token := [⟨.operator, "-", 0⟩, ⟨.identifier, "f", 1⟩, ⟨.parenthesis, "(", 2⟩,
      ⟨.identifier, "a", 3⟩, ⟨.operator, "+", 4⟩, ⟨.identifier, "b", 5⟩, ⟨.parenthesis, ")", 6⟩,
      ⟨.operator, "*", 7⟩, ⟨.identifier, "c", 8⟩]
    Precedence.mixed.Integral ∧ Precedence.mixed.Raised ∧ Flat.Expression Precedence.mixed ts
      ∧ (∃ e, (parse Precedence.mixed {} none ts).1 = .ok e)
      ∧ ∃ e, (parse Precedence.reordered {} none ts).1 = .ok e := by
  intro ts
  have hplus : Precedence.mixed.IsBinary ⟨.operator, "+", 4⟩ := ⟨rfl, .int (-1), rfl⟩
  have htimes : Precedence.mixed.IsBinary ⟨.operator, "*", 7⟩ := ⟨rfl, .int 2, rfl⟩
  have hminus : Precedence.mixed.IsUnary ⟨.operator, "-", 0⟩ := ⟨rfl, .int 1, rfl⟩
  have hsum : Flat.Expression Precedence.mixed [⟨.identifier, "a", 3⟩, ⟨.operator, "+", 4⟩,
      ⟨.identifier, "b", 5⟩] :=
    .step (.operand (.primary (.name rfl))) hplus (.primary (.name rfl))
  have hcall : Flat.Operand Precedence.mixed [⟨.identifier, "f", 1⟩, ⟨.parenthesis, "(", 2⟩,
      ⟨.identifier, "a", 3⟩, ⟨.operator, "+", 4⟩, ⟨.identifier, "b", 5⟩, ⟨.parenthesis, ")", 6⟩] :=
    .primary (.call rfl rfl (.last hsum) rfl)
  have hts : Flat.Expression Precedence.mixed ts :=
    .step (.operand (.step hminus hcall)) htimes (.primary (.name rfl))
  have h := parse_iff_flat Precedence.integral_mixed Precedence.raised_mixed {} none ts
  have hl : ¬ Exceeds Precedence.mixed {} none ts := h.1 ⟨by decide, by decide, by decide⟩
  have hl' : ¬ Exceeds Precedence.reordered {} none ts :=
    not_exceeds_of_roomy ⟨by decide, by decide, by decide⟩
  have haccepted : ∃ e, (parse Precedence.mixed {} none ts).1 = .ok e := (h.2.1 hl).1.2 hts
  refine ⟨Precedence.integral_mixed, Precedence.raised_mixed, hts, haccepted, ?_⟩
  exact (h.2.2 _ _ Precedence.integral_reordered Precedence.raised_reordered
    Precedence.sameOperators_mixed hl hl').1 haccepted

end Reckon
