import Reckon.Proofs.Expr.Unambiguous
/-
  Trees for tables of whole numbers, and nothing about how they are found. A phrase is ordered
  when at each of its operators

    right operands   every operator on the left side of the right operand binds tighter, or
                     groups to the right; so does every one on the left side of the operand of
                     a prefix operator
    left operands    no operator on the right side of the left operand binds less tightly; where
                     the operator itself groups to the right there is none
    whole phrases    every operator on the left side of a whole expression, of the contents of a
                     group or of an argument binds tighter than zero, or groups to the right

  with the operators between two operands at their binary levels and those before an operand at
  their unary levels. Sides end at groups and calls. The main statement is `parse_iff_ordered`:
  within the limits the parser accepts exactly the tokens of the ordered phrases, and answers with
  their trees. No tokens belong to two of them.
-/
namespace Reckon

namespace Precedence

/-- All levels are whole numbers. -/
structure Integral (p : Precedence) : Prop where
  unary : ∀ op level, p.unaryLevel op = some level → ∃ m : Int, level = .int m
  binary : ∀ op level, p.binaryLevel op = some level → ∃ m : Int, level = .int m

/-- Entries that hold whole numbers are whole numbers where they are looked up. -/
theorem integral_of_mem {p : Precedence} (hu : ∀ e ∈ p.unary, ∃ m : Int, e.2 = .int m)
    (hb : ∀ e ∈ p.binary, ∃ m : Int, e.2 = .int m) : p.Integral :=
  ⟨fun _ _ h => hu _ (mem_of_levelIn h), fun _ _ h => hb _ (mem_of_levelIn h)⟩

/-- An operator between two operands that has a level above `m`, or groups to the right. -/
def Tighter (p : Precedence) (m : Int) (op : String) : Prop :=
  ∃ n : Int, p.binaryLevel op = some (.int n) ∧ (m < n ∨ p.isRightAssociative op = true)

end Precedence

/-! ## Order -/

namespace Phrase

/-- A phrase to the right of an operator of level `m`. -/
def RightOf (p : Precedence) (m : Int) (e : Phrase) : Prop := ∀ op ∈ e.leftSpine, p.Tighter m op

/-- A phrase to the left of an operator of level `m`. -/
def LeftOf (p : Precedence) (op : String) (m : Int) (e : Phrase) : Prop :=
  ∀ level ∈ e.rightSpine p, p.isRightAssociative op = false ∧ ∃ n : Int, level = .int n ∧ m ≤ n

end Phrase

mutual
/-- Every operator of a phrase has operands that it may have. -/
def Phrase.Ordered (p : Precedence) : Phrase → Prop
  | .constant t => t.kind = .constant
  | .name t => t.kind = .identifier
  | .unary op e =>
    op.kind = .operator ∧ (∃ m : Int, p.unaryLevel op.text = some (.int m) ∧ e.RightOf p m)
      ∧ e.Ordered p
  | .binary l op r =>
    op.kind = .operator
      ∧ (∃ m : Int, p.binaryLevel op.text = some (.int m) ∧ l.LeftOf p op.text m ∧ r.RightOf p m)
      ∧ l.Ordered p ∧ r.Ordered p
  | .group a e b => a.isOpening = true ∧ b.isClosing = true ∧ e.RightOf p 0 ∧ e.Ordered p
  | .nullary n a b => n.kind = .identifier ∧ a.isOpening = true ∧ b.isClosing = true
  | .call n a args => n.kind = .identifier ∧ a.isOpening = true ∧ args.Ordered p

def Arguments.Ordered (p : Precedence) : Arguments → Prop
  | .last e b => b.isClosing = true ∧ e.RightOf p 0 ∧ e.Ordered p
  | .more e comma others =>
    comma.kind = .comma ∧ e.RightOf p 0 ∧ e.Ordered p ∧ others.Ordered p
end

/-! ## Levels as whole numbers -/

namespace Precedence

variable {p : Precedence} {m n : Int} {op : String}

theorem continues_int (h : p.binaryLevel op = some (.int n)) :
    p.continues (.int m) op =
      .ok (if n ≤ m ∧ p.isRightAssociative op = false then none else some (.int n)) := by
  unfold continues
  rw [h]
  simp only [Datum.atMost_int]
  cases p.isRightAssociative op <;> simp

theorem takes_int_iff (hp : p.Integral) : p.Takes (.int m) op ↔ p.Tighter m op := by
  constructor
  · intro h
    obtain ⟨level, hl, hc⟩ := h.exists_level
    obtain ⟨n, rfl⟩ := hp.binary op level hl
    refine ⟨n, hl, ?_⟩
    rw [continues_int hl] at hc
    by_cases hn : n ≤ m ∧ p.isRightAssociative op = false
    · rw [if_pos hn] at hc
      exact absurd hc (by simp)
    · cases hra : p.isRightAssociative op with
      | true => exact Or.inr rfl
      | false =>
        have : ¬ n ≤ m := fun hle => hn ⟨hle, hra⟩
        exact Or.inl (by omega)
  · rintro ⟨n, hl, hn⟩
    refine ⟨.int n, ?_⟩
    have hnot : ¬ (n ≤ m ∧ p.isRightAssociative op = false) := by
      rintro ⟨hle, hra⟩
      rcases hn with hn | hn
      · omega
      · rw [hra] at hn
        exact absurd hn (by decide)
    rw [continues_int hl, if_neg hnot]

theorem leaves_int_iff (h : p.binaryLevel op = some (.int n)) :
    p.Leaves (.int m) op ↔ n ≤ m ∧ p.isRightAssociative op = false := by
  unfold Leaves
  rw [continues_int h]
  by_cases hc : n ≤ m ∧ p.isRightAssociative op = false
  · rw [if_pos hc]
    exact ⟨fun _ => hc, fun _ => rfl⟩
  · rw [if_neg hc]
    exact ⟨fun he => absurd he (by simp), fun h => absurd h hc⟩

end Precedence

namespace Phrase

variable {p : Precedence} {m : Int} {op : String}

theorem openAt_int_iff (hp : p.Integral) (e : Phrase) : e.OpenAt p (.int m) ↔ e.RightOf p m :=
  forall₂_congr fun _ _ => Precedence.takes_int_iff hp

theorem openAt_lowest_iff (hp : p.Integral) (e : Phrase) :
    e.OpenAt p Precedence.lowest ↔ e.RightOf p 0 := openAt_int_iff hp e

/-- The levels on the right side are whole numbers. -/
theorem exists_int_of_mem_rightSpine (hp : p.Integral) (e : Phrase) {level : Level}
    (h : level ∈ e.rightSpine p) : ∃ n : Int, level = .int n := by
  match e with
  | .binary l op r =>
    rw [rightSpine, List.mem_append, Option.mem_toList] at h
    rcases h with h | h
    · exact hp.binary op.text level h
    · exact exists_int_of_mem_rightSpine hp r h
  | .unary op e =>
    rw [rightSpine, List.mem_append, Option.mem_toList] at h
    rcases h with h | h
    · exact hp.unary op.text level h
    · exact exists_int_of_mem_rightSpine hp e h
  | .constant _ => exact absurd h (by simp [rightSpine])
  | .name _ => exact absurd h (by simp [rightSpine])
  | .group _ _ _ => exact absurd h (by simp [rightSpine])
  | .nullary _ _ _ => exact absurd h (by simp [rightSpine])
  | .call _ _ _ => exact absurd h (by simp [rightSpine])

theorem leavesTo_int_iff (hp : p.Integral) (e : Phrase) (h : p.binaryLevel op = some (.int m)) :
    e.LeavesTo p op ↔ e.LeftOf p op m := by
  constructor
  · intro he level hlevel
    obtain ⟨n, rfl⟩ := exists_int_of_mem_rightSpine hp e hlevel
    obtain ⟨hle, hra⟩ := (Precedence.leaves_int_iff h).1 (he _ hlevel)
    exact ⟨hra, n, rfl, hle⟩
  · intro he level hlevel
    obtain ⟨hra, n, rfl, hle⟩ := he level hlevel
    exact (Precedence.leaves_int_iff h).2 ⟨hle, hra⟩

end Phrase

mutual
/-- Over whole numbers the order of a phrase is what makes it grammatical. -/
theorem Phrase.ordered_iff {p : Precedence} (hp : p.Integral) (e : Phrase) :
    e.Ordered p ↔ e.Grammatical p := by
  match e with
  | .constant t => exact Iff.rfl
  | .name t => exact Iff.rfl
  | .nullary n a b => exact Iff.rfl
  | .unary op e =>
    have ih := Phrase.ordered_iff hp e
    rw [Phrase.Ordered, Phrase.Grammatical]
    refine and_congr_right fun _ => ?_
    rw [ih]
    constructor
    · rintro ⟨⟨m, hm, he⟩, hg⟩
      exact ⟨⟨.int m, hm, (Phrase.openAt_int_iff hp e).2 he⟩, hg⟩
    · rintro ⟨⟨level, hl, he⟩, hg⟩
      obtain ⟨m, rfl⟩ := hp.unary op.text level hl
      exact ⟨⟨m, hl, (Phrase.openAt_int_iff hp e).1 he⟩, hg⟩
  | .binary l op r =>
    have ihl := Phrase.ordered_iff hp l
    have ihr := Phrase.ordered_iff hp r
    rw [Phrase.Ordered, Phrase.Grammatical]
    refine and_congr_right fun _ => ?_
    rw [ihl, ihr]
    constructor
    · rintro ⟨⟨m, hm, hl, hr⟩, hgl, hgr⟩
      exact ⟨⟨.int m, hm, (Phrase.openAt_int_iff hp r).2 hr⟩,
        (Phrase.leavesTo_int_iff hp l hm).2 hl, hgl, hgr⟩
    · rintro ⟨⟨level, hlevel, hr⟩, hl, hgl, hgr⟩
      obtain ⟨m, rfl⟩ := hp.binary op.text level hlevel
      exact ⟨⟨m, hlevel, (Phrase.leavesTo_int_iff hp l hlevel).1 hl,
        (Phrase.openAt_int_iff hp r).1 hr⟩, hgl, hgr⟩
  | .group a e b =>
    rw [Phrase.Ordered, Phrase.Grammatical]
    exact and_congr_right fun _ => and_congr_right fun _ =>
      and_congr (Phrase.openAt_lowest_iff hp e).symm (Phrase.ordered_iff hp e)
  | .call n a args =>
    rw [Phrase.Ordered, Phrase.Grammatical]
    exact and_congr_right fun _ => and_congr_right fun _ => Arguments.ordered_iff hp args

theorem Arguments.ordered_iff {p : Precedence} (hp : p.Integral) (args : Arguments) :
    args.Ordered p ↔ args.Grammatical p := by
  match args with
  | .last e b =>
    rw [Arguments.Ordered, Arguments.Grammatical]
    exact and_congr_right fun _ =>
      and_congr (Phrase.openAt_lowest_iff hp e).symm (Phrase.ordered_iff hp e)
  | .more e comma others =>
    rw [Arguments.Ordered, Arguments.Grammatical]
    exact and_congr_right fun _ => and_congr (Phrase.openAt_lowest_iff hp e).symm
      (and_congr (Phrase.ordered_iff hp e) (Arguments.ordered_iff hp others))
end

/-- A tree of all tokens: an ordered phrase that is a whole expression. -/
structure Phrase.TreeOf (p : Precedence) (ts : List Token) (e : Phrase) : Prop where
  tokens : e.tokens = ts
  rightOf : e.RightOf p 0
  ordered : e.Ordered p

theorem Phrase.treeOf_iff {p : Precedence} (hp : p.Integral) {ts : List Token} (e : Phrase) :
    e.TreeOf p ts ↔ e.Whole p ∧ e.tokens = ts :=
  ⟨fun h => ⟨⟨(openAt_lowest_iff hp e).2 h.rightOf, (ordered_iff hp e).1 h.ordered⟩, h.tokens⟩,
    fun h => ⟨h.2, (openAt_lowest_iff hp e).1 h.1.openAt, (ordered_iff hp e).2 h.1.grammatical⟩⟩

/-- Tokens have one tree. -/
theorem Phrase.TreeOf.unique {p : Precedence} (hp : p.Integral) {ts : List Token} {e f : Phrase}
    (he : e.TreeOf p ts) (hf : f.TreeOf p ts) : e = f := by
  obtain ⟨hw, hts⟩ := (Phrase.treeOf_iff hp e).1 he
  obtain ⟨hw', hts'⟩ := (Phrase.treeOf_iff hp f).1 hf
  exact hw.eq_of_tokens_eq hw' (hts.trans hts'.symm)

/-! ## The parser -/

theorem Parser.parse_eq_ok_iff {p : Precedence} (hp : p.Integral) {l : Limits}
    {source : Option String} {ts : List Token} (hl : ¬ Exceeds p l source ts) {e : Expr} :
    (parse p l source ts).1 = .ok e ↔ ∃ f : Phrase, f.TreeOf p ts ∧ f.expr = e := by
  constructor
  · intro h
    obtain ⟨f, hf, hts, he⟩ := of_parse_eq_ok h
    exact ⟨f, (Phrase.treeOf_iff hp f).2 ⟨hf, hts⟩, he⟩
  · rintro ⟨f, hf, rfl⟩
    obtain ⟨hwhole, rfl⟩ := (Phrase.treeOf_iff hp f).1 hf
    exact (parse_of_whole hwhole).resolve_right hl

/-- For every table of whole numbers: limits above the number of tokens are out of reach, and unless
a limit is exceeded, the tokens are accepted when they have an ordered tree. There is one such tree,
and the answer is what it denotes. -/
theorem Parser.parse_iff_ordered {p : Precedence} (hp : p.Integral) (l : Limits)
    (source : Option String) (ts : List Token) :
    (l.Roomy (ts.length + 1) → ¬ Exceeds p l source ts)
      ∧ (¬ Exceeds p l source ts → ∀ e : Expr, (parse p l source ts).1 = .ok e ↔
          ∃ f : Phrase, f.TreeOf p ts ∧ f.expr = e)
      ∧ ∀ f f' : Phrase, f.TreeOf p ts → f'.TreeOf p ts → f = f' :=
  ⟨not_exceeds_of_roomy, fun hl _ => parse_eq_ok_iff hp hl, fun _ _ hf hf' => hf.unique hp hf'⟩

/-- Sums below zero that group to the right, a prefix operator that binds less than products. An
operator that groups to the right goes on with any operand, so the sum in `-a*b+c` is the right
operand of the product. -/
def Precedence.mixed : Precedence where
  unary := [("-", .int 1)]
  binary := [("+", .int (-1)), ("*", .int 2)]
  rightAssociative := [.str "+"]

theorem Precedence.integral_mixed : mixed.Integral :=
  integral_of_mem (by simp [mixed]) (by simp [mixed])

theorem Parser.parse_mixed :
    Precedence.mixed.Integral
      ∧ (parse Precedence.mixed {} none [⟨.operator, "-", 0⟩, ⟨.identifier, "a", 1⟩,
          ⟨.operator, "*", 2⟩, ⟨.identifier, "b", 3⟩, ⟨.operator, "+", 4⟩,
          ⟨.identifier, "c", 5⟩]).1
        = .ok (.unary "-" (.binary "*" (.var "a" 1) (.binary "+" (.var "b" 3) (.var "c" 5) 4) 2) 0)
      := by
  refine ⟨Precedence.integral_mixed, ?_⟩
  let f : Phrase := .unary ⟨.operator, "-", 0⟩ (.binary (.name ⟨.identifier, "a", 1⟩)
    ⟨.operator, "*", 2⟩ (.binary (.name ⟨.identifier, "b", 3⟩) ⟨.operator, "+", 4⟩
      (.name ⟨.identifier, "c", 5⟩)))
  have hf : f.TreeOf Precedence.mixed f.tokens := by
    refine ⟨rfl, List.forall_mem_nil _, rfl, ⟨1, rfl, ?_⟩, rfl, ⟨2, rfl, List.forall_mem_nil _, ?_⟩,
      rfl, rfl, ⟨-1, rfl, List.forall_mem_nil _, List.forall_mem_nil _⟩, rfl, rfl⟩
    · intro op hop
      obtain rfl := List.mem_singleton.1 hop
      exact ⟨2, rfl, by decide⟩
    · intro op hop
      obtain rfl := List.mem_singleton.1 hop
      exact ⟨-1, rfl, by decide⟩
  have h := parse_iff_ordered Precedence.integral_mixed {} none f.tokens
  exact (h.2.1 (h.1 ⟨by decide, by decide, by decide⟩) _).2 ⟨f, hf, rfl⟩

end Reckon
