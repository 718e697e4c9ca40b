import Reckon.Proofs.Expr.Ordered
/-
  The tables in use unless others are given mean what arithmetic usually means:

    Sum      ::= Product { ("+" | "-") Product }
    Product  ::= Negation { ("*" | "/" | "%") Negation }
    Negation ::= "-" Negation | Power
    Power    ::= Primary [ "^" Negation ]
    Primary  ::= constant | name | name "(" [ Sum { "," Sum } ] ")" | "(" Sum ")"

  A repeated part stands to the right of what comes before it, so sums and products are folded to the
  left, and powers to the right. In the table the prefix operator binds tighter than powers
  (4 against 3). That a power nevertheless is the operand of a sign and not the other way around
  comes from grouping to the right: `^` goes on with any operand, and it is itself the right side of
  an operand that no operator of the table goes on with. So what decides are the two sides of a
  phrase: the operators on the left side of a `Negation` are all `^`, the levels on the right side of
  a `Product` are at least two, and a `Primary` has no sides at all.
-/
namespace Reckon

namespace Conventional

/-! ## The grammar -/

/-- A token of an operator with one of the given texts. -/
def IsOp (texts : List String) (t : Token) : Prop := t.kind = .operator ∧ t.text ∈ texts

mutual
inductive Sum : List Token → Expr → Prop
  | product {ts : List Token} {e : Expr} : Product ts e → Sum ts e
  | step {ts us : List Token} {l r : Expr} {op : Token} : Sum ts l → IsOp ["+", "-"] op →
      Product us r → Sum (ts ++ op :: us) (.binary op.text l r op.position)

inductive Product : List Token → Expr → Prop
  | negation {ts : List Token} {e : Expr} : Negation ts e → Product ts e
  | step {ts us : List Token} {l r : Expr} {op : Token} : Product ts l →
      IsOp ["*", "/", "%"] op → Negation us r →
      Product (ts ++ op :: us) (.binary op.text l r op.position)

inductive Negation : List Token → Expr → Prop
  | power {ts : List Token} {e : Expr} : Power ts e → Negation ts e
  | step {ts : List Token} {e : Expr} {op : Token} : IsOp ["-"] op → Negation ts e →
      Negation (op :: ts) (.unary op.text e op.position)

inductive Power : List Token → Expr → Prop
  | primary {ts : List Token} {e : Expr} : Primary ts e → Power ts e
  | step {ts us : List Token} {l r : Expr} {op : Token} : Primary ts l → IsOp ["^"] op →
      Negation us r → Power (ts ++ op :: us) (.binary op.text l r op.position)

inductive Primary : List Token → Expr → Prop
  | constant {t : Token} : t.kind = .constant → Primary [t] (.constant t.text t.position)
  | name {t : Token} : t.kind = .identifier → Primary [t] (.var t.text t.position)
  | nullary {n a b : Token} : n.kind = .identifier → a.isOpening = true → b.isClosing = true →
      Primary [n, a, b] (.call n.text [] n.position)
  | call {n a b : Token} {ts : List Token} {es : List Expr} : n.kind = .identifier →
      a.isOpening = true → Sums ts es → b.isClosing = true →
      Primary (n :: a :: (ts ++ [b])) (.call n.text es n.position)
  | group {a b : Token} {ts : List Token} {e : Expr} : a.isOpening = true → Sum ts e →
      b.isClosing = true → Primary (a :: (ts ++ [b])) e

/-- Sums with commas between them. -/
inductive Sums : List Token → List Expr → Prop
  | last {ts : List Token} {e : Expr} : Sum ts e → Sums ts [e]
  | more {ts us : List Token} {e : Expr} {comma : Token} {es : List Expr} : Sum ts e →
      comma.kind = .comma → Sums us es → Sums (ts ++ comma :: us) (e :: es)
end

/-! ## The table -/

/-- The table of the grammar. -/
abbrev table : Precedence := Precedence.default

theorem binaryLevel_table (op : String) :
    table.binaryLevel op =
      if op = "^" then some (.int 3)
      else if op ∈ ["*", "/", "%"] then some (.int 2)
      else if op ∈ ["+", "-"] then some (.int 1)
      else none := by
  unfold Precedence.binaryLevel Precedence.levelIn table Precedence.default
  simp only [Table.find?, List.mem_cons, List.not_mem_nil, or_false]
  by_cases h₁ : op = "^"
  · subst h₁; rfl
  by_cases h₂ : op = "*"
  · subst h₂; rfl
  by_cases h₃ : op = "/"
  · subst h₃; rfl
  by_cases h₄ : op = "%"
  · subst h₄; rfl
  by_cases h₅ : op = "+"
  · subst h₅; rfl
  by_cases h₆ : op = "-"
  · subst h₆; rfl
  simp [h₁, h₂, h₃, h₄, h₅, h₆, Ne.symm h₁, Ne.symm h₂, Ne.symm h₃, Ne.symm h₄, Ne.symm h₅,
    Ne.symm h₆]

theorem unaryLevel_table (op : String) :
    table.unaryLevel op = if op = "-" then some (.int 4) else none := by
  unfold Precedence.unaryLevel Precedence.levelIn table Precedence.default
  simp only [Table.find?]
  by_cases h : op = "-"
  · subst h; rfl
  · simp [h, Ne.symm h]

theorem isRightAssociative_table (op : String) :
    table.isRightAssociative op = decide (op = "^") := by
  show (Datum.same (.str op) (.str "^") || false) = decide (op = "^")
  rw [Bool.or_false]
  rfl

theorem integral_table : table.Integral :=
  Precedence.integral_of_mem (by simp [table, Precedence.default])
    (by simp [table, Precedence.default])

/-- The three levels of operators between two operands. -/
theorem of_binaryLevel {op : String} {m : Int} (h : table.binaryLevel op = some (.int m)) :
    (op ∈ ["+", "-"] ∧ m = 1) ∨ (op ∈ ["*", "/", "%"] ∧ m = 2) ∨ (op ∈ ["^"] ∧ m = 3) := by
  rw [binaryLevel_table] at h
  split at h
  · rename_i ho
    have hm : (3 : Int) = m := by simpa using h
    exact Or.inr (Or.inr ⟨by rw [ho]; decide, hm.symm⟩)
  · split at h
    · rename_i ho
      have hm : (2 : Int) = m := by simpa using h
      exact Or.inr (Or.inl ⟨ho, hm.symm⟩)
    · split at h
      · rename_i ho
        have hm : (1 : Int) = m := by simpa using h
        exact Or.inl ⟨ho, hm.symm⟩
      · exact absurd h (by simp)

theorem of_unaryLevel {op : String} {m : Int} (h : table.unaryLevel op = some (.int m)) :
    op ∈ ["-"] ∧ m = 4 := by
  rw [unaryLevel_table] at h
  by_cases ho : op = "-"
  · rw [if_pos ho] at h
    have hm : (4 : Int) = m := by simpa using h
    exact ⟨by rw [ho]; decide, hm.symm⟩
  · rw [if_neg ho] at h
    exact absurd h (by simp)

theorem binaryLevel_of_mem_sum {op : String} (h : op ∈ ["+", "-"]) :
    table.binaryLevel op = some (.int 1) := by
  simp only [List.mem_cons, List.not_mem_nil, or_false] at h
  rcases h with rfl | rfl
  · rfl
  · rfl

theorem binaryLevel_of_mem_product {op : String} (h : op ∈ ["*", "/", "%"]) :
    table.binaryLevel op = some (.int 2) := by
  simp only [List.mem_cons, List.not_mem_nil, or_false] at h
  rcases h with rfl | rfl | rfl
  · rfl
  · rfl
  · rfl

theorem binaryLevel_of_mem_power {op : String} (h : op ∈ ["^"]) :
    table.binaryLevel op = some (.int 3) := by
  obtain rfl := List.mem_singleton.1 h
  rfl

theorem unaryLevel_of_mem {op : String} (h : op ∈ ["-"]) :
    table.unaryLevel op = some (.int 4) := by
  obtain rfl := List.mem_singleton.1 h
  rfl

/-- Only powers group to the right. -/
theorem isRightAssociative_eq_false {op : String} {m : Int}
    (h : table.binaryLevel op = some (.int m)) (hm : m < 3) :
    table.isRightAssociative op = false := by
  rw [isRightAssociative_table, decide_eq_false_iff_not]
  rintro rfl
  have hlevel : table.binaryLevel "^" = some (.int 3) := rfl
  rw [hlevel] at h
  have : (3 : Int) = m := by simpa using h
  omega

theorem tighter_power {op : String} (h : op ∈ ["^"]) (m : Int) : table.Tighter m op := by
  obtain rfl := List.mem_singleton.1 h
  exact ⟨3, rfl, Or.inr rfl⟩

/-! ## From derivations to ordered phrases -/

/-- What the grammar says about the two sides of a phrase of a layer. -/
structure Layer (m : Int) (f : Phrase) : Prop where
  ordered : f.Ordered table
  left : f.RightOf table m
  right : ∀ level ∈ f.rightSpine table, ∃ n : Int, level = .int n ∧ m < n

/-- An operand of a sign or a power: on its left side there are only powers. -/
structure Tight (f : Phrase) : Prop where
  layer : Layer 2 f
  left : ∀ m, f.RightOf table m

/-- A phrase without sides. -/
structure Closed (f : Phrase) : Prop where
  ordered : f.Ordered table
  left : f.leftSpine = []
  right : f.rightSpine table = []

theorem Layer.mono {m m' : Int} {f : Phrase} (h : Layer m f) (hm : m' ≤ m) : Layer m' f := by
  refine ⟨h.ordered, fun op ho => ?_, fun level hl => ?_⟩
  · obtain ⟨n, hn, ht⟩ := h.left op ho
    exact ⟨n, hn, ht.imp (fun ht => by omega) id⟩
  · obtain ⟨n, rfl, hn⟩ := h.right level hl
    exact ⟨n, rfl, by omega⟩

theorem Closed.tight {f : Phrase} (h : Closed f) : Tight f := by
  have hleft : ∀ m, f.RightOf table m := by
    intro m op ho
    rw [h.left] at ho
    exact absurd ho List.not_mem_nil
  refine ⟨⟨h.ordered, hleft 2, fun level hl => ?_⟩, hleft⟩
  rw [h.right] at hl
  exact absurd hl List.not_mem_nil

/-- An operator of level `m + 1` that groups to the left stands between a phrase of its own layer
and one of the next. -/
theorem Layer.binary {m : Int} {l r : Phrase} {op : Token} (hl : Layer m l) (hr : Layer (m + 1) r)
    (hk : op.kind = .operator) (hop : table.binaryLevel op.text = some (.int (m + 1)))
    (hm : m < 2) : Layer m (.binary l op r) := by
  refine ⟨⟨hk, ⟨m + 1, hop, fun level hlevel => ?_, hr.left⟩, hl.ordered, hr.ordered⟩,
    fun q hq => ?_, fun level hlevel => ?_⟩
  · obtain ⟨n, rfl, hn⟩ := hl.right level hlevel
    exact ⟨isRightAssociative_eq_false hop (by omega), n, rfl, by omega⟩
  · rcases List.mem_cons.1 hq with rfl | hq
    · exact ⟨m + 1, hop, Or.inl (by omega)⟩
    · exact hl.left q hq
  · rw [Phrase.rightSpine_binary hop] at hlevel
    rcases List.mem_cons.1 hlevel with rfl | hlevel
    · exact ⟨m + 1, rfl, by omega⟩
    · obtain ⟨n, rfl, hn⟩ := hr.right level hlevel
      exact ⟨n, rfl, by omega⟩

theorem Tight.power {l r : Phrase} {op : Token} (hl : Closed l) (hr : Tight r)
    (hk : op.kind = .operator) (hop : op.text ∈ ["^"]) : Tight (.binary l op r) := by
  have hlevel := binaryLevel_of_mem_power hop
  have hleft : ∀ m, (Phrase.binary l op r).RightOf table m := by
    intro m q hq
    rw [Phrase.leftSpine, hl.left, List.mem_singleton] at hq
    rw [hq]
    exact tighter_power hop m
  refine ⟨⟨⟨hk, ⟨3, hlevel, fun level h => ?_, hr.left 3⟩, hl.ordered, hr.layer.ordered⟩, hleft 2,
    fun level h => ?_⟩, hleft⟩
  · rw [hl.right] at h
    exact absurd h List.not_mem_nil
  · rw [Phrase.rightSpine_binary hlevel] at h
    rcases List.mem_cons.1 h with rfl | h
    · exact ⟨3, rfl, by omega⟩
    · exact hr.layer.right level h

theorem Tight.sign {e : Phrase} {op : Token} (he : Tight e) (hk : op.kind = .operator)
    (hop : op.text ∈ ["-"]) : Tight (.unary op e) := by
  have hlevel := unaryLevel_of_mem hop
  have hleft : ∀ m, (Phrase.unary op e).RightOf table m := fun m => List.forall_mem_nil _
  refine ⟨⟨⟨hk, ⟨4, hlevel, he.left 4⟩, he.layer.ordered⟩, hleft 2, fun level h => ?_⟩, hleft⟩
  rw [Phrase.rightSpine_unary hlevel] at h
  rcases List.mem_cons.1 h with rfl | h
  · exact ⟨4, rfl, by omega⟩
  · exact he.layer.right level h

mutual
/-- A sum is an ordered phrase. -/
theorem Sum.exists_phrase {ts : List Token} {e : Expr} (h : Sum ts e) :
    ∃ f : Phrase, f.tokens = ts ∧ f.expr = e ∧ Layer 0 f := by
  match h with
  | .product h =>
    obtain ⟨f, hts, he, hf⟩ := Product.exists_phrase h
    exact ⟨f, hts, he, hf.mono (by decide)⟩
  | .step hl hop hr =>
    obtain ⟨l, rfl, rfl, hlayer⟩ := Sum.exists_phrase hl
    obtain ⟨r, rfl, rfl, hlayer'⟩ := Product.exists_phrase hr
    exact ⟨.binary l _ r, rfl, rfl,
      hlayer.binary hlayer' hop.1 (binaryLevel_of_mem_sum hop.2) (by decide)⟩

theorem Product.exists_phrase {ts : List Token} {e : Expr} (h : Product ts e) :
    ∃ f : Phrase, f.tokens = ts ∧ f.expr = e ∧ Layer 1 f := by
  match h with
  | .negation h =>
    obtain ⟨f, hts, he, hf⟩ := Negation.exists_phrase h
    exact ⟨f, hts, he, hf.layer.mono (by decide)⟩
  | .step hl hop hr =>
    obtain ⟨l, rfl, rfl, hlayer⟩ := Product.exists_phrase hl
    obtain ⟨r, rfl, rfl, hlayer'⟩ := Negation.exists_phrase hr
    exact ⟨.binary l _ r, rfl, rfl,
      hlayer.binary hlayer'.layer hop.1 (binaryLevel_of_mem_product hop.2) (by decide)⟩

theorem Negation.exists_phrase {ts : List Token} {e : Expr} (h : Negation ts e) :
    ∃ f : Phrase, f.tokens = ts ∧ f.expr = e ∧ Tight f := by
  match h with
  | .power h => exact Power.exists_phrase h
  | .step hop he =>
    obtain ⟨f, rfl, rfl, hf⟩ := Negation.exists_phrase he
    exact ⟨.unary _ f, rfl, rfl, hf.sign hop.1 hop.2⟩

theorem Power.exists_phrase {ts : List Token} {e : Expr} (h : Power ts e) :
    ∃ f : Phrase, f.tokens = ts ∧ f.expr = e ∧ Tight f := by
  match h with
  | .primary h =>
    obtain ⟨f, hts, he, hf⟩ := Primary.exists_phrase h
    exact ⟨f, hts, he, hf.tight⟩
  | .step hl hop hr =>
    obtain ⟨l, rfl, rfl, hlayer⟩ := Primary.exists_phrase hl
    obtain ⟨r, rfl, rfl, hlayer'⟩ := Negation.exists_phrase hr
    exact ⟨.binary l _ r, rfl, rfl, .power hlayer hlayer' hop.1 hop.2⟩

theorem Primary.exists_phrase {ts : List Token} {e : Expr} (h : Primary ts e) :
    ∃ f : Phrase, f.tokens = ts ∧ f.expr = e ∧ Closed f := by
  match h with
  | .constant hk => exact ⟨.constant _, rfl, rfl, hk, rfl, rfl⟩
  | .name hk => exact ⟨.name _, rfl, rfl, hk, rfl, rfl⟩
  | .nullary hk ha hb => exact ⟨.nullary _ _ _, rfl, rfl, ⟨hk, ha, hb⟩, rfl, rfl⟩
  | .call hk ha hargs hb =>
    obtain ⟨args, hts, rfl, hordered⟩ := Sums.exists_arguments hargs _ hb
    exact ⟨.call _ _ args, by rw [Phrase.tokens, hts], rfl, ⟨hk, ha, hordered⟩, rfl, rfl⟩
  | .group ha he hb =>
    obtain ⟨f, rfl, rfl, hf⟩ := Sum.exists_phrase he
    exact ⟨.group _ f _, rfl, rfl, ⟨ha, hb, hf.left, hf.ordered⟩, rfl, rfl⟩

theorem Sums.exists_arguments {ts : List Token} {es : List Expr} (h : Sums ts es) (b : Token)
    (hb : b.isClosing = true) :
    ∃ args : Arguments, args.tokens = ts ++ [b] ∧ args.exprs = es ∧ args.Ordered table := by
  match h with
  | .last h =>
    obtain ⟨f, rfl, rfl, hf⟩ := Sum.exists_phrase h
    exact ⟨.last f b, rfl, rfl, hb, hf.left, hf.ordered⟩
  | .more he hk hes =>
    obtain ⟨f, rfl, rfl, hf⟩ := Sum.exists_phrase he
    obtain ⟨args, hts, rfl, hordered⟩ := Sums.exists_arguments hes b hb
    refine ⟨.more f _ args, ?_, rfl, hk, hf.left, hf.ordered, hordered⟩
    rw [Arguments.tokens, hts, List.append_assoc, List.cons_append]
end

/-! ## From ordered phrases to derivations -/

/-- What an ordered phrase derives from: the tighter its sides, the higher the layer. -/
structure Derives (f : Phrase) : Prop where
  sum : Sum f.tokens f.expr
  product : (f.RightOf table 1 ∨ ∀ level ∈ f.rightSpine table, ∃ n : Int, level = .int n ∧ 2 ≤ n) →
    Product f.tokens f.expr
  negation : f.RightOf table 2 → Negation f.tokens f.expr
  primary : f.rightSpine table = [] → Primary f.tokens f.expr

theorem derives_of_primary {f : Phrase} (h : Primary f.tokens f.expr) : Derives f :=
  ⟨.product (.negation (.power (.primary h))), fun _ => .negation (.power (.primary h)),
    fun _ => .power (.primary h), fun _ => h⟩

theorem derives_of_negation {f : Phrase} (h : Negation f.tokens f.expr)
    (hf : f.rightSpine table ≠ []) : Derives f :=
  ⟨.product (.negation h), fun _ => .negation h, fun _ => h, fun hnil => absurd hnil hf⟩

theorem rightOf_of_le {f : Phrase} {m m' : Int} (h : f.RightOf table m) (hm : m' ≤ m) :
    f.RightOf table m' := by
  intro op ho
  obtain ⟨n, hn, ht⟩ := h op ho
  exact ⟨n, hn, ht.imp (fun ht => by omega) id⟩

theorem not_tighter_of_mem_sum {op : String} (h : op ∈ ["+", "-"]) {m : Int} (hm : 1 ≤ m) :
    ¬ table.Tighter m op := by
  rintro ⟨n, hn, ht⟩
  rw [binaryLevel_of_mem_sum h] at hn
  have hone : (1 : Int) = n := by simpa using hn
  rw [isRightAssociative_eq_false (binaryLevel_of_mem_sum h) (by decide)] at ht
  rcases ht with ht | ht
  · omega
  · exact absurd ht (by decide)

theorem not_tighter_of_mem_product {op : String} (h : op ∈ ["*", "/", "%"]) {m : Int} (hm : 2 ≤ m) :
    ¬ table.Tighter m op := by
  rintro ⟨n, hn, ht⟩
  rw [binaryLevel_of_mem_product h] at hn
  have htwo : (2 : Int) = n := by simpa using hn
  rw [isRightAssociative_eq_false (binaryLevel_of_mem_product h) (by decide)] at ht
  rcases ht with ht | ht
  · omega
  · exact absurd ht (by decide)

mutual
theorem derives_of_ordered (f : Phrase) (hf : f.Ordered table) : Derives f := by
  match f, hf with
  | .constant t, hf => exact derives_of_primary (.constant hf)
  | .name t, hf => exact derives_of_primary (.name hf)
  | .nullary n a b, hf => exact derives_of_primary (.nullary hf.1 hf.2.1 hf.2.2)
  | .group a e b, ⟨ha, hb, _, he⟩ =>
    exact derives_of_primary (.group ha (derives_of_ordered e he).sum hb)
  | .call n a args, ⟨hk, ha, hargs⟩ =>
    obtain ⟨ts, b, hts, hb, hsums⟩ := sums_of_ordered args hargs
    refine derives_of_primary ?_
    rw [Phrase.tokens, hts]
    exact .call hk ha hsums hb
  | .unary op e, ⟨hk, ⟨m, hm, hside⟩, he⟩ =>
    obtain ⟨hop, rfl⟩ := of_unaryLevel hm
    have hneg := (derives_of_ordered e he).negation (rightOf_of_le hside (by decide))
    refine derives_of_negation (.step ⟨hk, hop⟩ hneg) ?_
    rw [Phrase.rightSpine_unary hm]
    exact List.cons_ne_nil _ _
  | .binary l op r, ⟨hk, ⟨m, hm, hleft, hright⟩, hl, hr⟩ =>
    have ihl := derives_of_ordered l hl
    have ihr := derives_of_ordered r hr
    have hspine := Phrase.rightSpine_binary hm l r
    have hne : (Phrase.binary l op r).rightSpine table ≠ [] := by
      rw [hspine]
      exact List.cons_ne_nil _ _
    obtain ⟨hop, rfl⟩ | ⟨hop, rfl⟩ | ⟨hop, rfl⟩ := of_binaryLevel hm
    · -- a sum is neither to the right of an operator nor to the left of a tighter one
      refine ⟨.step ihl.sum ⟨hk, hop⟩ (ihr.product (Or.inl hright)), fun h => ?_, fun h => ?_,
        fun h => absurd h hne⟩
      · rcases h with h | h
        · exact absurd (h op.text (List.mem_cons_self ..)) (not_tighter_of_mem_sum hop (by decide))
        · obtain ⟨n, hn, hle⟩ := h (.int 1) (by rw [hspine]; exact List.mem_cons_self ..)
          have hone : (1 : Int) = n := by simpa using hn
          omega
      · exact absurd (h op.text (List.mem_cons_self ..)) (not_tighter_of_mem_sum hop (by decide))
    · have hprod : Product (Phrase.binary l op r).tokens (Phrase.binary l op r).expr := by
        refine .step (ihl.product (Or.inr fun level hlevel => ?_)) ⟨hk, hop⟩ (ihr.negation hright)
        exact (hleft level hlevel).2
      refine ⟨.product hprod, fun _ => hprod, fun h => ?_, fun h => absurd h hne⟩
      exact absurd (h op.text (List.mem_cons_self ..)) (not_tighter_of_mem_product hop (by decide))
    · -- a power groups to the right, so nothing is left open on the right side of its base
      have hnil : l.rightSpine table = [] := by
        refine List.eq_nil_iff_forall_not_mem.2 fun level hlevel => ?_
        have hra := (hleft level hlevel).1
        rw [isRightAssociative_table, List.mem_singleton.1 hop] at hra
        exact absurd hra (by decide)
      have hneg := ihr.negation (rightOf_of_le hright (by decide))
      exact derives_of_negation (.power (.step (ihl.primary hnil) ⟨hk, hop⟩ hneg)) hne

theorem sums_of_ordered (args : Arguments) (h : args.Ordered table) :
    ∃ ts b, args.tokens = ts ++ [b] ∧ b.isClosing = true ∧ Sums ts args.exprs := by
  match args, h with
  | .last e b, ⟨hb, _, he⟩ => exact ⟨e.tokens, b, rfl, hb, .last (derives_of_ordered e he).sum⟩
  | .more e comma others, ⟨hk, _, he, ho⟩ =>
    obtain ⟨ts, b, hts, hb, hsums⟩ := sums_of_ordered others ho
    refine ⟨e.tokens ++ comma :: ts, b, ?_, hb, .more (derives_of_ordered e he).sum hk hsums⟩
    rw [Arguments.tokens, hts, List.append_assoc, List.cons_append]
end

/-- The trees of sums are the trees of the ordered phrases of the table. -/
theorem sum_iff {ts : List Token} {e : Expr} :
    Sum ts e ↔ ∃ f : Phrase, f.TreeOf table ts ∧ f.expr = e := by
  constructor
  · intro h
    obtain ⟨f, hts, he, hf⟩ := h.exists_phrase
    exact ⟨f, ⟨hts, hf.left, hf.ordered⟩, he⟩
  · rintro ⟨f, ⟨rfl, -, hf⟩, rfl⟩
    exact (derives_of_ordered f hf).sum

/-! ## The parser -/

/-- With the table the parser accepts exactly the sums and answers with their trees, unless a limit
is exceeded; limits above the number of tokens are out of reach. A sum has one tree. -/
theorem parse_iff_sum (l : Limits) (source : Option String) (ts : List Token) :
    (l.Roomy (ts.length + 1) → ¬ Parser.Exceeds table l source ts)
      ∧ (¬ Parser.Exceeds table l source ts →
          ∀ e : Expr, (Parser.parse table l source ts).1 = .ok e ↔ Sum ts e)
      ∧ ∀ e e' : Expr, Sum ts e → Sum ts e' → e = e' := by
  refine ⟨Parser.not_exceeds_of_roomy, fun hl e => ?_, fun e e' he he' => ?_⟩
  · rw [sum_iff, Parser.parse_eq_ok_iff integral_table hl]
  · obtain ⟨f, hf, rfl⟩ := sum_iff.1 he
    obtain ⟨f', hf', rfl⟩ := sum_iff.1 he'
    rw [hf.unique integral_table hf']

/-- The sign of a power stands outside, that of an exponent inside: `-a^-b`. -/
theorem parse_signs :
    (Parser.parse table {} none [⟨.operator, "-", 0⟩, ⟨.identifier, "a", 1⟩, ⟨.operator, "^", 2⟩,
        ⟨.operator, "-", 3⟩, ⟨.identifier, "b", 4⟩]).1
      = .ok (.unary "-" (.binary "^" (.var "a" 1) (.unary "-" (.var "b" 4) 3) 2) 0) := by
  have hop : ∀ text pos, IsOp [text] ⟨.operator, text, pos⟩ := fun text _ =>
    ⟨rfl, List.mem_singleton_self text⟩
  have ha : Primary [⟨.identifier, "a", 1⟩] (.var "a" 1) := .name (t := ⟨_, "a", 1⟩) rfl
  have hb : Primary [⟨.identifier, "b", 4⟩] (.var "b" 4) := .name (t := ⟨_, "b", 4⟩) rfl
  have hexponent : Negation [⟨.operator, "-", 3⟩, ⟨.identifier, "b", 4⟩]
      (.unary "-" (.var "b" 4) 3) := .step (hop "-" 3) (.power (.primary hb))
  have hsum := Sum.product (.negation (.step (hop "-" 0) (.power (.step ha (hop "^" 2) hexponent))))
  have h := parse_iff_sum {} none [⟨.operator, "-", 0⟩, ⟨.identifier, "a", 1⟩,
    ⟨.operator, "^", 2⟩, ⟨.operator, "-", 3⟩, ⟨.identifier, "b", 4⟩]
  exact (h.2.1 (h.1 ⟨by decide, by decide, by decide⟩) _).2 hsum

end Conventional

end Reckon
