import Reckon.Proofs.Expr.Unambiguous
/-
  What a phrase is charged, said on its tokens, its tree and itself. Each node of the tree has a
  token of its own (`Phrase.countP_makesNode`); the arguments are those of the calls in the tree
  (`Phrase.forall_arities_iff`); and the frames that are open at once are what the phrases inside
  one another cost (`Phrase.cost_eq_nesting`).
-/
namespace Reckon

/-! ## Nodes -/

/-- Whether a token makes a node of the tree: a literal, a name or an operator. -/
def Token.makesNode (t : Token) : Bool :=
  t.kind == .constant || t.kind == .identifier || t.kind == .operator

theorem Token.makesNode_of_kind {t : Token}
    (h : t.kind = .constant ∨ t.kind = .identifier ∨ t.kind = .operator) : t.makesNode = true := by
  unfold makesNode
  rcases h with h | h | h <;> rw [h] <;> rfl

theorem Token.makesNode_eq_false {t : Token} (h : t.kind = .parenthesis ∨ t.kind = .comma) :
    t.makesNode = false := by
  unfold makesNode
  rcases h with h | h <;> rw [h] <;> rfl

theorem countP_makesNode_cons {t : Token} (ts : List Token)
    (h : t.kind = .constant ∨ t.kind = .identifier ∨ t.kind = .operator) :
    (t :: ts).countP Token.makesNode = 1 + ts.countP Token.makesNode := by
  rw [List.countP_cons_of_pos (Token.makesNode_of_kind h), Nat.add_comm]

theorem countP_makesNode_skip {t : Token} (ts : List Token)
    (h : t.kind = .parenthesis ∨ t.kind = .comma) :
    (t :: ts).countP Token.makesNode = ts.countP Token.makesNode :=
  List.countP_cons_of_neg (by rw [Token.makesNode_eq_false h]; exact Bool.false_ne_true)

mutual
/-- Every node of a phrase has a token of its own. -/
theorem Phrase.countP_makesNode {p : Precedence} (f : Phrase) (hf : f.Grammatical p) :
    f.tokens.countP Token.makesNode = f.expr.size := by
  match f, hf with
  | .constant t, hk => exact countP_makesNode_cons [] (Or.inl hk)
  | .name t, hk => exact countP_makesNode_cons [] (Or.inr (Or.inl hk))
  | .unary op e, ⟨hk, _, he⟩ =>
    have ih := Phrase.countP_makesNode e he
    rw [Phrase.tokens, countP_makesNode_cons _ (Or.inr (Or.inr hk)), ih]
    rfl
  | .binary l op r, ⟨hk, _, _, hl, hr⟩ =>
    have ihl := Phrase.countP_makesNode l hl
    have ihr := Phrase.countP_makesNode r hr
    rw [Phrase.tokens, List.countP_append, countP_makesNode_cons _ (Or.inr (Or.inr hk)), ihl, ihr]
    simp only [Phrase.expr, Expr.size]
    omega
  | .group a e b, ⟨ha, hb, _, he⟩ =>
    have ih := Phrase.countP_makesNode e he
    rw [Phrase.tokens, countP_makesNode_skip _ (Or.inl (Token.kind_of_isOpening ha)),
      List.countP_append, countP_makesNode_skip _ (Or.inl (Token.kind_of_isClosing hb)), ih]
    rfl
  | .nullary n a b, ⟨hk, ha, hb⟩ =>
    rw [Phrase.tokens, countP_makesNode_cons _ (Or.inr (Or.inl hk)),
      countP_makesNode_skip _ (Or.inl (Token.kind_of_isOpening ha)),
      countP_makesNode_skip _ (Or.inl (Token.kind_of_isClosing hb))]
    rfl
  | .call n a args, ⟨hk, ha, hargs⟩ =>
    have ih := Arguments.countP_makesNode args hargs
    rw [Phrase.tokens, countP_makesNode_cons _ (Or.inr (Or.inl hk)),
      countP_makesNode_skip _ (Or.inl (Token.kind_of_isOpening ha)), ih]
    rfl

theorem Arguments.countP_makesNode {p : Precedence} (args : Arguments) (h : args.Grammatical p) :
    args.tokens.countP Token.makesNode = Expr.sizeAll args.exprs := by
  match args, h with
  | .last e b, ⟨hb, _, he⟩ =>
    have ih := Phrase.countP_makesNode e he
    rw [Arguments.tokens, List.countP_append,
      countP_makesNode_skip _ (Or.inl (Token.kind_of_isClosing hb)), ih]
    rfl
  | .more e comma others, ⟨hk, _, he, ho⟩ =>
    have ih := Phrase.countP_makesNode e he
    have iho := Arguments.countP_makesNode others ho
    rw [Arguments.tokens, List.countP_append, countP_makesNode_skip _ (Or.inr hk), ih, iho]
    rfl
end

/-! ## Arguments -/

namespace Expr

mutual
/-- The numbers of arguments of the calls in a tree. -/
def arities : Expr → List Nat
  | constant .. => []
  | var .. => []
  | unary _ e _ => e.arities
  | binary _ l r _ => l.arities ++ r.arities
  | call _ args _ => args.length :: aritiesAll args
  | unknown .. => []

def aritiesAll : List Expr → List Nat
  | [] => []
  | e :: es => e.arities ++ aritiesAll es
end

end Expr

theorem Arguments.length_exprs (args : Arguments) : args.exprs.length = args.length := by
  cases args with
  | last e b => rfl
  | more e comma others => exact congrArg (· + 1) (Arguments.length_exprs others)

theorem Arguments.length_pos (args : Arguments) : 0 < args.length := by
  cases args with
  | last e b => exact Nat.zero_lt_one
  | more e comma others => exact Nat.succ_pos _

mutual
/-- A phrase is charged for the calls of its tree that have arguments. -/
theorem Phrase.arities_eq_filter (f : Phrase) :
    f.arities = f.expr.arities.filter (fun n => decide (0 < n)) := by
  match f with
  | .constant t => rfl
  | .name t => rfl
  | .unary op e => exact Phrase.arities_eq_filter e
  | .binary l op r =>
    rw [Phrase.arities, Phrase.arities_eq_filter l, Phrase.arities_eq_filter r, Phrase.expr,
      Expr.arities, List.filter_append]
  | .group a e b => exact Phrase.arities_eq_filter e
  | .nullary n a b => rfl
  | .call n a args =>
    have hpos : decide (0 < args.length) = true := decide_eq_true args.length_pos
    rw [Phrase.arities, Phrase.expr, Expr.arities, args.length_exprs,
      Arguments.arities_eq_filter args, List.filter_cons_of_pos (p := fun n => decide (0 < n)) hpos]

theorem Arguments.arities_eq_filter (args : Arguments) :
    args.arities = (Expr.aritiesAll args.exprs).filter (fun n => decide (0 < n)) := by
  match args with
  | .last e b =>
    rw [Arguments.arities, Arguments.exprs, Expr.aritiesAll, Expr.aritiesAll, List.append_nil]
    exact Phrase.arities_eq_filter e
  | .more e comma others =>
    rw [Arguments.arities, Arguments.exprs, Expr.aritiesAll, List.filter_append,
      Phrase.arities_eq_filter e, Arguments.arities_eq_filter others]
end

/-- A limit on arguments that is not negative admits calls without arguments. -/
theorem Phrase.forall_arities_iff {f : Phrase} {bound : Int} (hb : 0 ≤ bound) :
    (∀ n ∈ f.arities, (n : Int) ≤ bound) ↔ ∀ n ∈ f.expr.arities, (n : Int) ≤ bound := by
  rw [f.arities_eq_filter]
  constructor
  · intro h n hn
    by_cases hpos : 0 < n
    · exact h n (List.mem_filter.2 ⟨hn, decide_eq_true hpos⟩)
    · omega
  · exact fun h n hn => h n (List.mem_filter.1 hn).1

/-! ## Nesting -/

/-- The largest of some numbers, or 0. -/
def largest (ns : List Nat) : Nat := ns.foldr max 0

theorem largest_append (ms ns : List Nat) : largest (ms ++ ns) = max (largest ms) (largest ns) := by
  induction ms with
  | nil => exact (Nat.zero_max _).symm
  | cons m ms ih =>
    show max m (largest (ms ++ ns)) = max (max m (largest ms)) (largest ns)
    rw [ih, Nat.max_assoc]

theorem largest_singleton (n : Nat) : largest [n] = n := Nat.max_zero n

/-- The arguments of a call. -/
def Arguments.phrases : Arguments → List Phrase
  | .last e _ => [e]
  | .more e _ others => e :: others.phrases

/-- What is directly inside a phrase: what stands in parentheses, arguments, operands of prefix
operators and right operands. A left operand is not, but what is directly inside it is. -/
def Phrase.inner : Phrase → List Phrase
  | .constant _ => []
  | .name _ => []
  | .unary _ e => [e]
  | .binary l _ r => l.inner ++ [r]
  | .group _ e _ => [e]
  | .nullary .. => []
  | .call _ _ args => args.phrases

theorem Arguments.sizeOf_lt {e : Phrase} (args : Arguments) (h : e ∈ args.phrases) :
    sizeOf e < sizeOf args := by
  match args with
  | .last f b =>
    obtain rfl := List.mem_singleton.1 h
    rw [Arguments.last.sizeOf_spec]
    omega
  | .more f comma others =>
    rw [Arguments.more.sizeOf_spec]
    rcases List.mem_cons.1 h with rfl | h
    · omega
    · have := Arguments.sizeOf_lt others h
      omega

theorem Phrase.sizeOf_lt {e : Phrase} (f : Phrase) (h : e ∈ f.inner) : sizeOf e < sizeOf f := by
  match f with
  | .constant t => exact absurd h List.not_mem_nil
  | .name t => exact absurd h List.not_mem_nil
  | .unary op f =>
    obtain rfl := List.mem_singleton.1 h
    rw [Phrase.unary.sizeOf_spec]
    omega
  | .binary l op r =>
    rw [Phrase.binary.sizeOf_spec]
    rcases List.mem_append.1 h with h | h
    · have := Phrase.sizeOf_lt l h
      omega
    · obtain rfl := List.mem_singleton.1 h
      omega
  | .group a f b =>
    obtain rfl := List.mem_singleton.1 h
    rw [Phrase.group.sizeOf_spec]
    omega
  | .nullary n a b => exact absurd h List.not_mem_nil
  | .call n a args =>
    have := args.sizeOf_lt h
    rw [Phrase.call.sizeOf_spec]
    omega

/-- What a phrase costs in nesting: 1, and as much as the most expensive phrase inside it. -/
def Phrase.cost (f : Phrase) : Nat := 1 + largest (f.inner.attach.map fun e => e.1.cost)
termination_by sizeOf f
decreasing_by exact Phrase.sizeOf_lt _ e.2

theorem Phrase.cost_eq (f : Phrase) : f.cost = 1 + largest (f.inner.map Phrase.cost) := by
  rw [Phrase.cost, List.attach_map_val]

mutual
/-- The frames that are open at once are those of the most expensive phrase inside. -/
theorem Phrase.largest_inner (f : Phrase) : largest (f.inner.map Phrase.cost) = f.nesting := by
  match f with
  | .constant t => rfl
  | .name t => rfl
  | .unary op e =>
    have ih := Phrase.largest_inner e
    rw [Phrase.inner, List.map_singleton, largest_singleton, e.cost_eq, ih, Nat.add_comm]
    rfl
  | .binary l op r =>
    have ihl := Phrase.largest_inner l
    have ihr := Phrase.largest_inner r
    rw [Phrase.inner, List.map_append, largest_append, List.map_singleton, largest_singleton, ihl,
      r.cost_eq, ihr, Nat.add_comm 1]
    rfl
  | .group a e b =>
    have ih := Phrase.largest_inner e
    rw [Phrase.inner, List.map_singleton, largest_singleton, e.cost_eq, ih, Nat.add_comm]
    rfl
  | .nullary n a b => rfl
  | .call n a args => exact Arguments.largest_phrases args

theorem Arguments.largest_phrases (args : Arguments) :
    largest (args.phrases.map Phrase.cost) = args.nesting := by
  match args with
  | .last e b =>
    have ih := Phrase.largest_inner e
    rw [Arguments.phrases, List.map_singleton, largest_singleton, e.cost_eq, ih, Nat.add_comm]
    rfl
  | .more e comma others =>
    have ih := Phrase.largest_inner e
    have iho := Arguments.largest_phrases others
    show max e.cost (largest (others.phrases.map Phrase.cost)) = _
    rw [e.cost_eq, ih, iho, Nat.add_comm]
    rfl
end

theorem Phrase.cost_eq_nesting (f : Phrase) : f.cost = f.nesting + 1 := by
  rw [f.cost_eq, f.largest_inner, Nat.add_comm]

end Reckon
