import Reckon.Expr.Parser
/-
  Phrases: expressions as they are written. A phrase keeps what a tree forgets, the groups in
  parentheses and every token, so it has a text of its own (`Phrase.tokens`) besides the tree
  that it denotes (`Phrase.expr`).

  Which operand belongs to which operator is a question of the two sides of a phrase. On its left
  side stand the operators that are reached through left operands; each of them has to go on with
  whatever the phrase is an operand of. On its right side stand the operators that are reached
  through right operands and operands of prefix operators; each of them has to leave the operator
  behind the phrase to somebody else. Groups, calls, names and literals are closed: they have no
  operators on either side. `Phrase.Grammatical` asks for this at every operator of a phrase.
-/
namespace Reckon

namespace Precedence

/-- An operator goes on with an operand that is read at `floor`. -/
def Takes (p : Precedence) (floor : Level) (operator : String) : Prop :=
  ∃ level, p.continues floor operator = .ok (some level)

/-- An operator is left alone by an operand that is read at `floor`. -/
def Leaves (p : Precedence) (floor : Level) (operator : String) : Prop :=
  p.continues floor operator = .ok none

/-- The level of an operator that goes on is the one it has between two operands. -/
theorem binaryLevel_of_continues {p : Precedence} {floor level : Level} {operator : String}
    (h : p.continues floor operator = .ok (some level)) :
    p.binaryLevel operator = some level := by
  unfold continues at h
  split at h
  · simp at h
  · rename_i l hl
    split at h
    · simp at h
    · rename_i low _
      by_cases hc : (low && !p.isRightAssociative operator) = true
      · rw [if_pos hc] at h
        simp at h
      · rw [if_neg hc] at h
        rw [hl, ← Except.ok.inj h]

theorem Takes.exists_level {p : Precedence} {floor : Level} {operator : String}
    (h : p.Takes floor operator) :
    ∃ level, p.binaryLevel operator = some level ∧
      p.continues floor operator = .ok (some level) := by
  obtain ⟨level, hl⟩ := h
  exact ⟨level, binaryLevel_of_continues hl, hl⟩

/-- Every operator between two operands has a level above zero, or groups to the right. -/
def Raised (p : Precedence) : Prop :=
  ∀ op level, p.binaryLevel op = some level →
    ∃ low, Datum.atMost level (.int 0) = .ok low ∧ (low = false ∨ p.isRightAssociative op = true)

theorem mem_of_levelIn {t : Table Level} {op : String} {level : Level}
    (h : levelIn t op = some level) : (op, level) ∈ t := by
  unfold levelIn at h
  split at h
  · exact absurd h (by simp)
  · exact Table.mem_of_find? h

theorem raised_of_mem {p : Precedence}
    (h : ∀ e ∈ p.binary, ∃ n : Int, e.2 = .int n ∧ (0 < n ∨ p.isRightAssociative e.1 = true)) :
    p.Raised := by
  intro op level hlevel
  obtain ⟨n, hn, hraised⟩ := h _ (mem_of_levelIn hlevel)
  obtain rfl : level = .int n := hn
  refine ⟨decide (n ≤ 0), Datum.atMost_int n 0, hraised.imp (fun hn => ?_) id⟩
  exact decide_eq_false (by omega)

/-- Such an operator goes on at the lowest level. -/
theorem Raised.takes {p : Precedence} (h : p.Raised) {op : String} {level : Level}
    (hlevel : p.binaryLevel op = some level) : p.Takes lowest op := by
  obtain ⟨low, hlow, hright⟩ := h op level hlevel
  have hpass : (low && !p.isRightAssociative op) = false := by
    rcases hright with rfl | hra
    · rfl
    · rw [hra]
      exact Bool.and_false low
  refine ⟨level, ?_⟩
  unfold continues lowest
  rw [hlevel]
  simp only [hlow, hpass, Bool.false_eq_true, if_false]

end Precedence

mutual
/-- An expression as it is written. -/
inductive Phrase where
  | constant (token : Token)
  | name (token : Token)
  | unary (operator : Token) (operand : Phrase)
  | binary (left : Phrase) (operator : Token) (right : Phrase)
  | group (opening : Token) (inner : Phrase) (closing : Token)
  /-- A call without arguments. -/
  | nullary (name opening closing : Token)
  | call (name opening : Token) (args : Arguments)

/-- The arguments of a call with the closing parenthesis behind them. -/
inductive Arguments where
  | last (arg : Phrase) (closing : Token)
  | more (arg : Phrase) (comma : Token) (others : Arguments)
end

/-! ## Text and tree -/

mutual
/-- The tokens of a phrase, from left to right. -/
def Phrase.tokens : Phrase → List Token
  | .constant t => [t]
  | .name t => [t]
  | .unary op e => op :: e.tokens
  | .binary l op r => l.tokens ++ op :: r.tokens
  | .group a e b => a :: (e.tokens ++ [b])
  | .nullary n a b => [n, a, b]
  | .call n a args => n :: a :: args.tokens

def Arguments.tokens : Arguments → List Token
  | .last e b => e.tokens ++ [b]
  | .more e comma others => e.tokens ++ comma :: others.tokens
end

mutual
/-- The tree that a phrase denotes: groups are dropped, and every node has the text and the
position of its token. -/
def Phrase.expr : Phrase → Expr
  | .constant t => .constant t.text t.position
  | .name t => .var t.text t.position
  | .unary op e => .unary op.text e.expr op.position
  | .binary l op r => .binary op.text l.expr r.expr op.position
  | .group _ e _ => e.expr
  | .nullary n _ _ => .call n.text [] n.position
  | .call n _ args => .call n.text args.exprs n.position

def Arguments.exprs : Arguments → List Expr
  | .last e _ => [e.expr]
  | .more e _ others => e.expr :: others.exprs
end

/-! ## The two sides of a phrase -/

namespace Phrase

/-- The operators on the left side, from the outermost in. -/
def leftSpine : Phrase → List String
  | .binary l op _ => op.text :: l.leftSpine
  | _ => []

/-- The levels of the operators on the right side, from the outermost in. -/
def rightSpine (p : Precedence) : Phrase → List Level
  | .binary _ op r => (p.binaryLevel op.text).toList ++ r.rightSpine p
  | .unary op e => (p.unaryLevel op.text).toList ++ e.rightSpine p
  | _ => []

theorem rightSpine_binary {p : Precedence} {op : Token} {level : Level}
    (h : p.binaryLevel op.text = some level) (l r : Phrase) :
    (binary l op r).rightSpine p = level :: r.rightSpine p := by
  rw [rightSpine, h]
  rfl

theorem rightSpine_unary {p : Precedence} {op : Token} {level : Level}
    (h : p.unaryLevel op.text = some level) (e : Phrase) :
    (unary op e).rightSpine p = level :: e.rightSpine p := by
  rw [rightSpine, h]
  rfl

/-- Every operator on the left side goes on with an operand read at `floor`. -/
def OpenAt (p : Precedence) (floor : Level) (e : Phrase) : Prop :=
  ∀ operator ∈ e.leftSpine, p.Takes floor operator

/-- Every operator on the right side leaves an operator behind the phrase alone. -/
def LeavesTo (p : Precedence) (operator : String) (e : Phrase) : Prop :=
  ∀ level ∈ e.rightSpine p, p.Leaves level operator

end Phrase

mutual
/-- Tokens are of the right kinds, and every operator has the operands that its level gives it. -/
def Phrase.Grammatical (p : Precedence) : Phrase → Prop
  | .constant t => t.kind = .constant
  | .name t => t.kind = .identifier
  | .unary op e =>
    op.kind = .operator ∧ (∃ level, p.unaryLevel op.text = some level ∧ e.OpenAt p level)
      ∧ e.Grammatical p
  | .binary l op r =>
    op.kind = .operator ∧ (∃ level, p.binaryLevel op.text = some level ∧ r.OpenAt p level)
      ∧ l.LeavesTo p op.text ∧ l.Grammatical p ∧ r.Grammatical p
  | .group a e b =>
    a.isOpening = true ∧ b.isClosing = true ∧ e.OpenAt p Precedence.lowest ∧ e.Grammatical p
  | .nullary n a b => n.kind = .identifier ∧ a.isOpening = true ∧ b.isClosing = true
  | .call n a args => n.kind = .identifier ∧ a.isOpening = true ∧ args.Grammatical p

def Arguments.Grammatical (p : Precedence) : Arguments → Prop
  | .last e b => b.isClosing = true ∧ e.OpenAt p Precedence.lowest ∧ e.Grammatical p
  | .more e comma others =>
    comma.kind = .comma ∧ e.OpenAt p Precedence.lowest ∧ e.Grammatical p
      ∧ others.Grammatical p
end

/-- A phrase that is a whole expression: it is read at the lowest level. -/
structure Phrase.Whole (p : Precedence) (e : Phrase) : Prop where
  openAt : e.OpenAt p Precedence.lowest
  grammatical : e.Grammatical p

/-! ## Kinds of parentheses -/

theorem Token.kind_of_isOpening {t : Token} (h : t.isOpening = true) : t.kind = .parenthesis := by
  simp only [Token.isOpening, Bool.and_eq_true, beq_iff_eq] at h
  exact h.1

theorem Token.kind_of_isClosing {t : Token} (h : t.isClosing = true) : t.kind = .parenthesis := by
  simp only [Token.isClosing, Bool.and_eq_true, beq_iff_eq] at h
  exact h.1

theorem Token.isOpening_eq_false {t : Token} (h : t.kind ≠ .parenthesis) : t.isOpening = false := by
  cases ho : t.isOpening with
  | false => rfl
  | true => exact absurd (Token.kind_of_isOpening ho) h

theorem Token.isClosing_eq_false {t : Token} (h : t.kind ≠ .parenthesis) : t.isClosing = false := by
  cases hc : t.isClosing with
  | false => rfl
  | true => exact absurd (Token.kind_of_isClosing hc) h

/-- No parenthesis both opens and closes. -/
theorem Token.isClosing_of_isOpening {t : Token} (h : t.isOpening = true) : t.isClosing = false := by
  simp only [Token.isOpening, Bool.and_eq_true, beq_iff_eq] at h
  simp [Token.isClosing, h.2]

theorem Token.isOpening_of_isClosing {t : Token} (h : t.isClosing = true) : t.isOpening = false := by
  cases ho : t.isOpening with
  | false => rfl
  | true =>
    rw [Token.isClosing_of_isOpening ho] at h
    exact absurd h Bool.false_ne_true

/-- A phrase has a first token, and it closes nothing. -/
theorem Phrase.exists_tokens_eq_cons {p : Precedence} (e : Phrase) (he : e.Grammatical p) :
    ∃ t ts, e.tokens = t :: ts ∧ t.isClosing = false := by
  match e, he with
  | .constant t, he => exact ⟨t, [], rfl, Token.isClosing_eq_false (by rw [he]; decide)⟩
  | .name t, he => exact ⟨t, [], rfl, Token.isClosing_eq_false (by rw [he]; decide)⟩
  | .unary op e, he => exact ⟨op, e.tokens, rfl, Token.isClosing_eq_false (by rw [he.1]; decide)⟩
  | .binary l op r, he =>
    obtain ⟨t, ts, hl, ht⟩ := Phrase.exists_tokens_eq_cons l he.2.2.2.1
    exact ⟨t, ts ++ op :: r.tokens, by rw [Phrase.tokens, hl]; rfl, ht⟩
  | .group a e b, he => exact ⟨a, e.tokens ++ [b], rfl, Token.isClosing_of_isOpening he.1⟩
  | .nullary n a b, he => exact ⟨n, [a, b], rfl, Token.isClosing_eq_false (by rw [he.1]; decide)⟩
  | .call n a args, he =>
    exact ⟨n, a :: args.tokens, rfl, Token.isClosing_eq_false (by rw [he.1]; decide)⟩

/-- So do arguments. -/
theorem Arguments.exists_tokens_eq_cons {p : Precedence} (args : Arguments)
    (h : args.Grammatical p) : ∃ t ts, args.tokens = t :: ts ∧ t.isClosing = false := by
  match args, h with
  | .last e b, h =>
    obtain ⟨t, ts, he, ht⟩ := e.exists_tokens_eq_cons h.2.2
    exact ⟨t, ts ++ [b], by rw [Arguments.tokens, he]; rfl, ht⟩
  | .more e comma others, h =>
    obtain ⟨t, ts, he, ht⟩ := e.exists_tokens_eq_cons h.2.2.1
    exact ⟨t, ts ++ comma :: others.tokens, by rw [Arguments.tokens, he]; rfl, ht⟩

end Reckon
