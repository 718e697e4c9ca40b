import Reckon.Proofs.Expr.Parsing
/-
  No text has two trees. The parser already gives two whole phrases with the same tokens the same
  tree, so what is left is that a phrase can be told from its tree and its tokens together
  (`Phrase.eq_of_expr_eq`). Two facts about tokens carry this.

    Parentheses are balanced in a phrase, and no prefix of it closes more than it opens. So a
    phrase that starts with the parenthesis of a group and goes on behind the group is longer
    than the group.

    The tokens that are no parentheses can be counted in the tree (`Expr.words`). So where two
    phrases with the same tree are followed by different things, they end at the same place.
-/
namespace Reckon

/-! ## Balance -/

/-- What a token adds to the number of open parentheses. -/
def Token.turn (t : Token) : Int :=
  if t.isOpening then 1 else if t.isClosing then -1 else 0

theorem Token.turn_of_kind_ne {t : Token} (h : t.kind ≠ .parenthesis) : t.turn = 0 := by
  unfold turn
  rw [Token.isOpening_eq_false h, Token.isClosing_eq_false h]
  rfl

theorem Token.turn_of_isOpening {t : Token} (h : t.isOpening = true) : t.turn = 1 := by
  unfold turn
  rw [if_pos h]

theorem Token.turn_of_isClosing {t : Token} (h : t.isClosing = true) : t.turn = -1 := by
  unfold turn
  rw [Token.isOpening_of_isClosing h, h]
  rfl

/-- The parentheses that tokens leave open. -/
def openAfter : List Token → Int
  | [] => 0
  | t :: ts => t.turn + openAfter ts

theorem openAfter_append (s t : List Token) : openAfter (s ++ t) = openAfter s + openAfter t := by
  induction s with
  | nil => rw [List.nil_append, openAfter, Int.zero_add]
  | cons a s ih => rw [List.cons_append, openAfter, openAfter, ih, Int.add_assoc]

/-- Every parenthesis is closed, and none before it is opened. -/
structure Balanced (ts : List Token) : Prop where
  prefixes : ∀ n, 0 ≤ openAfter (ts.take n)
  whole : openAfter ts = 0

theorem Balanced.append {s t : List Token} (hs : Balanced s) (ht : Balanced t) :
    Balanced (s ++ t) := by
  refine ⟨fun n => ?_, ?_⟩
  · have h₁ := hs.prefixes n
    have h₂ := ht.prefixes (n - s.length)
    rw [List.take_append, openAfter_append]
    omega
  · rw [openAfter_append, hs.whole, ht.whole]
    rfl

theorem Balanced.cons {t : Token} {ts : List Token} (ht : t.kind ≠ .parenthesis)
    (h : Balanced ts) : Balanced (t :: ts) := by
  have hturn := Token.turn_of_kind_ne ht
  refine ⟨fun n => ?_, ?_⟩
  · cases n with
    | zero => exact Int.le_refl 0
    | succ n =>
      have hn := h.prefixes n
      rw [List.take_succ_cons, openAfter, hturn]
      omega
  · rw [openAfter, hturn, h.whole]
    rfl

theorem balanced_nil : Balanced [] := ⟨fun _ => by rw [List.take_nil]; exact Int.le_refl 0, rfl⟩

/-- Behind an opening parenthesis a prefix that does not reach the closing one leaves it open. -/
theorem Balanced.openAfter_take {a : Token} {ts rest : List Token} (ha : a.isOpening = true)
    (h : Balanced ts) {n : Nat} (hn : n ≤ ts.length) :
    0 < openAfter ((a :: (ts ++ rest)).take (n + 1)) := by
  have hp := h.prefixes n
  rw [List.take_succ_cons, List.take_append_of_le_length hn, openAfter, Token.turn_of_isOpening ha]
  omega

theorem Balanced.wrap {a b : Token} {ts : List Token} (ha : a.isOpening = true)
    (hb : b.isClosing = true) (h : Balanced ts) : Balanced (a :: (ts ++ [b])) := by
  have hturn := Token.turn_of_isOpening ha
  have hclose := Token.turn_of_isClosing hb
  have hwhole : openAfter (a :: (ts ++ [b])) = 0 := by
    rw [openAfter, openAfter_append, h.whole, hturn]
    simp only [openAfter, hclose]
    omega
  refine ⟨fun n => ?_, hwhole⟩
  cases n with
  | zero => exact Int.le_refl 0
  | succ n =>
    by_cases hn : n ≤ ts.length
    · exact Int.le_of_lt (h.openAfter_take ha hn)
    · have hlen : (a :: (ts ++ [b])).length ≤ n + 1 := by
        rw [List.length_cons, List.length_append, List.length_singleton]
        omega
      have hall : openAfter ((a :: (ts ++ [b])).take (n + 1)) = 0 := by
        rw [List.take_of_length_le hlen, hwhole]
      exact Int.le_of_eq hall.symm

mutual
theorem Phrase.balanced {p : Precedence} (e : Phrase) (he : e.Grammatical p) :
    Balanced e.tokens := by
  match e, he with
  | .constant t, he => exact balanced_nil.cons (by rw [he]; decide)
  | .name t, he => exact balanced_nil.cons (by rw [he]; decide)
  | .unary op e, he => exact (Phrase.balanced e he.2.2).cons (by rw [he.1]; decide)
  | .binary l op r, he =>
    have hr := (Phrase.balanced r he.2.2.2.2).cons (t := op) (by rw [he.1]; decide)
    exact (Phrase.balanced l he.2.2.2.1).append hr
  | .group a e b, he => exact (Phrase.balanced e he.2.2.2).wrap he.1 he.2.1
  | .nullary n a b, he => exact (balanced_nil.wrap he.2.1 he.2.2).cons (by rw [he.1]; decide)
  | .call n a args, he =>
    obtain ⟨ts, b, hts, hb, h⟩ := Arguments.exists_balanced args he.2.2
    rw [Phrase.tokens, hts]
    exact (h.wrap he.2.1 hb).cons (by rw [he.1]; decide)

/-- Arguments are balanced up to the parenthesis that closes the call. -/
theorem Arguments.exists_balanced {p : Precedence} (args : Arguments) (h : args.Grammatical p) :
    ∃ ts b, args.tokens = ts ++ [b] ∧ b.isClosing = true ∧ Balanced ts := by
  match args, h with
  | .last e b, h => exact ⟨e.tokens, b, rfl, h.1, Phrase.balanced e h.2.2⟩
  | .more e comma others, h =>
    obtain ⟨ts, b, hts, hb, ho⟩ := Arguments.exists_balanced others h.2.2.2
    refine ⟨e.tokens ++ comma :: ts, b, ?_, hb, ?_⟩
    · rw [Arguments.tokens, hts, List.append_assoc, List.cons_append]
    · exact (Phrase.balanced e h.2.2.1).append (ho.cons (by rw [h.1]; decide))
end

/-- A group is not the left operand of anything inside it. -/
theorem Phrase.not_group_prefix {p : Precedence} {a b op : Token} {e l r : Phrase}
    (ha : a.isOpening = true) (he : e.Grammatical p) (hl : l.Grammatical p) :
    (Phrase.group a e b).tokens ≠ (Phrase.binary l op r).tokens := by
  intro h
  rw [Phrase.tokens, Phrase.tokens] at h
  obtain ⟨t, ts, hts, -⟩ := l.exists_tokens_eq_cons hl
  have hlen := congrArg List.length h
  rw [List.length_cons, List.length_append, List.length_singleton, List.length_append,
    List.length_cons, hts, List.length_cons] at hlen
  have htake : (a :: (e.tokens ++ [b])).take (ts.length + 1) = l.tokens := by
    rw [h, List.take_left' (by rw [hts, List.length_cons])]
  have hpos : 0 < openAfter ((a :: (e.tokens ++ [b])).take (ts.length + 1)) :=
    (e.balanced he).openAfter_take ha (by omega)
  rw [htake, (l.balanced hl).whole] at hpos
  omega

/-! ## Counting words -/

mutual
/-- The tokens of a tree that are no parentheses: one for each node, and the commas. -/
def Expr.words : Expr → Nat
  | .constant .. => 1
  | .var .. => 1
  | .unary _ e _ => e.words + 1
  | .binary _ l r _ => l.words + (r.words + 1)
  | .call _ args _ => wordsAll args + 1
  | .unknown .. => 1

def Expr.wordsAll : List Expr → Nat
  | [] => 0
  | [e] => e.words
  | e :: es => e.words + (wordsAll es + 1)
end

/-- Whether a token is no parenthesis. -/
def Token.isWord (t : Token) : Bool := t.kind != .parenthesis

theorem Token.isWord_of_kind_ne {t : Token} (h : t.kind ≠ .parenthesis) : t.isWord = true :=
  bne_iff_ne.2 h

theorem Token.isWord_of_isOpening {t : Token} (h : t.isOpening = true) : t.isWord = false := by
  rw [isWord, Token.kind_of_isOpening h]
  rfl

theorem Token.isWord_of_isClosing {t : Token} (h : t.isClosing = true) : t.isWord = false := by
  rw [isWord, Token.kind_of_isClosing h]
  rfl

/-- Arguments come in a list that is not empty. -/
theorem Arguments.exprs_ne_nil (args : Arguments) : args.exprs ≠ [] := by
  cases args with
  | last e b => exact List.cons_ne_nil _ _
  | more e comma others => exact List.cons_ne_nil _ _

mutual
/-- The words of a phrase are those of its tree. -/
theorem Phrase.countP_tokens {p : Precedence} (e : Phrase) (he : e.Grammatical p) :
    e.tokens.countP Token.isWord = e.expr.words := by
  match e, he with
  | .constant t, he =>
    have ht := Token.isWord_of_kind_ne (t := t) (by rw [he]; decide)
    exact List.countP_cons_of_pos ht
  | .name t, he =>
    have ht := Token.isWord_of_kind_ne (t := t) (by rw [he]; decide)
    exact List.countP_cons_of_pos ht
  | .unary op e, he =>
    have ht := Token.isWord_of_kind_ne (t := op) (by rw [he.1]; decide)
    rw [Phrase.tokens, List.countP_cons_of_pos ht, Phrase.countP_tokens e he.2.2]
    rfl
  | .binary l op r, he =>
    have ht := Token.isWord_of_kind_ne (t := op) (by rw [he.1]; decide)
    rw [Phrase.tokens, List.countP_append, List.countP_cons_of_pos ht,
      Phrase.countP_tokens l he.2.2.2.1, Phrase.countP_tokens r he.2.2.2.2]
    rfl
  | .group a e b, he =>
    have ha := Token.isWord_of_isOpening he.1
    have hb := Token.isWord_of_isClosing he.2.1
    rw [Phrase.tokens, List.countP_cons_of_neg (by simp [ha]), List.countP_append,
      Phrase.countP_tokens e he.2.2.2, List.countP_cons_of_neg (by simp [hb])]
    rfl
  | .nullary n a b, he =>
    have ht := Token.isWord_of_kind_ne (t := n) (by rw [he.1]; decide)
    have ha := Token.isWord_of_isOpening he.2.1
    have hb := Token.isWord_of_isClosing he.2.2
    rw [Phrase.tokens, List.countP_cons_of_pos ht, List.countP_cons_of_neg (by simp [ha]),
      List.countP_cons_of_neg (by simp [hb])]
    rfl
  | .call n a args, he =>
    have ht := Token.isWord_of_kind_ne (t := n) (by rw [he.1]; decide)
    have ha := Token.isWord_of_isOpening he.2.1
    rw [Phrase.tokens, List.countP_cons_of_pos ht, List.countP_cons_of_neg (by simp [ha]),
      Arguments.countP_tokens args he.2.2]
    rfl

theorem Arguments.countP_tokens {p : Precedence} (args : Arguments) (h : args.Grammatical p) :
    args.tokens.countP Token.isWord = Expr.wordsAll args.exprs := by
  match args, h with
  | .last e b, h =>
    have hb := Token.isWord_of_isClosing h.1
    rw [Arguments.tokens, List.countP_append, Phrase.countP_tokens e h.2.2,
      List.countP_cons_of_neg (by simp [hb])]
    rfl
  | .more e comma others, h =>
    have ht := Token.isWord_of_kind_ne (t := comma) (by rw [h.1]; decide)
    rw [Arguments.tokens, List.countP_append, Phrase.countP_tokens e h.2.2.1,
      List.countP_cons_of_pos ht, Arguments.countP_tokens others h.2.2.2, Arguments.exprs]
    rw [Expr.wordsAll.eq_def (e.expr :: others.exprs)]
    cases hes : others.exprs with
    | nil => exact absurd hes others.exprs_ne_nil
    | cons x xs => rfl
end

/-- Phrases with the same tree end at the same place, where a word comes behind both. -/
theorem Phrase.append_inj {p : Precedence} {e f : Phrase} {s t : Token} {ss ts : List Token}
    (he : e.Grammatical p) (hf : f.Grammatical p) (hs : s.kind ≠ .parenthesis)
    (ht : t.kind ≠ .parenthesis) (hexpr : e.expr = f.expr)
    (h : e.tokens ++ s :: ss = f.tokens ++ t :: ts) :
    e.tokens = f.tokens ∧ s = t ∧ ss = ts := by
  have hcount : e.tokens.countP Token.isWord = f.tokens.countP Token.isWord := by
    rw [e.countP_tokens he, f.countP_tokens hf, hexpr]
  have hnil : ∀ (z : List Token) (u : Token) (us vs : List Token), u.kind ≠ .parenthesis →
      z.countP Token.isWord = 0 → u :: us = z ++ vs → z = [] := by
    intro z u us vs hu hz hcons
    cases z with
    | nil => rfl
    | cons x z =>
      obtain ⟨rfl, -⟩ := List.cons.inj hcons
      rw [List.countP_cons_of_pos (Token.isWord_of_kind_ne hu)] at hz
      omega
  rcases List.append_eq_append_iff.1 h with ⟨z, hz, hrest⟩ | ⟨z, hz, hrest⟩
  · have hzero : z.countP Token.isWord = 0 := by
      rw [hz, List.countP_append] at hcount
      omega
    obtain rfl := hnil z s ss (t :: ts) hs hzero hrest
    rw [List.nil_append, List.cons.injEq] at hrest
    exact ⟨by rw [hz, List.append_nil], hrest⟩
  · have hzero : z.countP Token.isWord = 0 := by
      rw [hz, List.countP_append] at hcount
      omega
    obtain rfl := hnil z t ts (s :: ss) ht hzero hrest
    rw [List.nil_append, List.cons.injEq] at hrest
    exact ⟨by rw [hz, List.append_nil], hrest.1.symm, hrest.2.symm⟩

/-! ## Phrases and trees -/

/-- A phrase in parentheses. -/
def Phrase.isGroup : Phrase → Bool
  | .group .. => true
  | _ => false

/-- What starts and ends like a group is one. -/
theorem Phrase.group_tokens_ne {p : Precedence} {a b : Token} {e f : Phrase}
    (he : (Phrase.group a e b).Grammatical p) (hf : f.Grammatical p)
    (hne : f.isGroup = false) : (Phrase.group a e b).tokens ≠ f.tokens := by
  have hkind : ∀ t ts, t.kind ≠ .parenthesis → (Phrase.group a e b).tokens ≠ t :: ts := by
    intro t ts ht h
    obtain ⟨rfl, -⟩ := List.cons.inj h
    exact ht (Token.kind_of_isOpening he.1)
  cases f with
  | constant t => exact hkind t [] (by rw [show t.kind = .constant from hf]; decide)
  | name t => exact hkind t [] (by rw [show t.kind = .identifier from hf]; decide)
  | unary op f => exact hkind op f.tokens (by rw [hf.1]; decide)
  | binary l op r => exact Phrase.not_group_prefix he.1 he.2.2.2 hf.2.2.2.1
  | group a' e' b' => exact absurd hne Bool.noConfusion
  | nullary n a' b' => exact hkind n [a', b'] (by rw [hf.1]; decide)
  | call n a' args => exact hkind n (a' :: args.tokens) (by rw [hf.1]; decide)

mutual
/-- A phrase can be told from its tree and its tokens. -/
theorem Phrase.eq_of_expr_eq {p : Precedence} (e f : Phrase) (he : e.Grammatical p)
    (hf : f.Grammatical p) (hexpr : e.expr = f.expr) (hts : e.tokens = f.tokens) : e = f := by
  match e with
  | .constant t =>
    cases f with
    | constant u => rw [(List.cons.inj hts).1]
    | group a f b => exact absurd hts.symm (Phrase.group_tokens_ne hf he rfl)
    | name | unary | binary | nullary | call => exact absurd hexpr (by simp [Phrase.expr])
  | .name t =>
    cases f with
    | name u => rw [(List.cons.inj hts).1]
    | group a f b => exact absurd hts.symm (Phrase.group_tokens_ne hf he rfl)
    | constant | unary | binary | nullary | call => exact absurd hexpr (by simp [Phrase.expr])
  | .unary op e =>
    cases f with
    | unary op' f =>
      obtain ⟨rfl, hrest⟩ := List.cons.inj hts
      simp only [Phrase.expr, Expr.unary.injEq] at hexpr
      rw [Phrase.eq_of_expr_eq e f he.2.2 hf.2.2 hexpr.2.1 hrest]
    | group a f b => exact absurd hts.symm (Phrase.group_tokens_ne hf he rfl)
    | constant | name | binary | nullary | call => exact absurd hexpr (by simp [Phrase.expr])
  | .binary l op r =>
    cases f with
    | binary l' op' r' =>
      simp only [Phrase.expr, Expr.binary.injEq] at hexpr
      obtain ⟨-, hl, hr, -⟩ := hexpr
      obtain ⟨hk, -, -, hgl, hgr⟩ := he
      obtain ⟨hk', -, -, hgl', hgr'⟩ := hf
      obtain ⟨hlts, rfl, hrts⟩ := Phrase.append_inj hgl hgl' (by rw [hk]; decide)
        (by rw [hk']; decide) hl hts
      rw [Phrase.eq_of_expr_eq l l' hgl hgl' hl hlts, Phrase.eq_of_expr_eq r r' hgr hgr' hr hrts]
    | group a f b => exact absurd hts.symm (Phrase.group_tokens_ne hf he rfl)
    | constant | name | unary | nullary | call => exact absurd hexpr (by simp [Phrase.expr])
  | .group a e b =>
    cases f with
    | group a' f b' =>
      obtain ⟨rfl, hrest⟩ := List.cons.inj hts
      obtain ⟨hinner, hclosing⟩ := List.append_inj' hrest rfl
      obtain ⟨rfl, -⟩ := List.cons.inj hclosing
      rw [Phrase.eq_of_expr_eq e f he.2.2.2 hf.2.2.2 hexpr hinner]
    | constant | name | unary | binary | nullary | call =>
      exact absurd hts (Phrase.group_tokens_ne he hf rfl)
  | .nullary n a b =>
    cases f with
    | nullary n' a' b' =>
      simp only [Phrase.tokens, List.cons.injEq, and_true] at hts
      obtain ⟨rfl, rfl, rfl⟩ := hts
      rfl
    | group a f b => exact absurd hts.symm (Phrase.group_tokens_ne hf he rfl)
    | call n' a' args =>
      simp only [Phrase.expr, Expr.call.injEq] at hexpr
      exact absurd hexpr.2.1.symm args.exprs_ne_nil
    | constant | name | unary | binary => exact absurd hexpr (by simp [Phrase.expr])
  | .call n a args =>
    cases f with
    | call n' a' args' =>
      simp only [Phrase.tokens, List.cons.injEq] at hts
      obtain ⟨rfl, rfl, hrest⟩ := hts
      simp only [Phrase.expr, Expr.call.injEq] at hexpr
      rw [Arguments.eq_of_exprs_eq args args' he.2.2 hf.2.2 hexpr.2.1 hrest]
    | group a f b => exact absurd hts.symm (Phrase.group_tokens_ne hf he rfl)
    | nullary n' a' b' =>
      simp only [Phrase.expr, Expr.call.injEq] at hexpr
      exact absurd hexpr.2.1 args.exprs_ne_nil
    | constant | name | unary | binary => exact absurd hexpr (by simp [Phrase.expr])

theorem Arguments.eq_of_exprs_eq {p : Precedence} (args args' : Arguments)
    (h : args.Grammatical p) (h' : args'.Grammatical p) (hexprs : args.exprs = args'.exprs)
    (hts : args.tokens = args'.tokens) : args = args' := by
  match args with
  | .last e b =>
    cases args' with
    | last f b' =>
      obtain ⟨hinner, hclosing⟩ := List.append_inj' hts rfl
      obtain ⟨rfl, -⟩ := List.cons.inj hclosing
      rw [Phrase.eq_of_expr_eq e f h.2.2 h'.2.2 (List.cons.inj hexprs).1 hinner]
    | more f comma others => exact absurd (List.cons.inj hexprs).2.symm others.exprs_ne_nil
  | .more e comma others =>
    cases args' with
    | last f b' => exact absurd (List.cons.inj hexprs).2 others.exprs_ne_nil
    | more f comma' others' =>
      obtain ⟨hexpr, hrest⟩ := List.cons.inj hexprs
      obtain ⟨hk, -, hg, ho⟩ := h
      obtain ⟨hk', -, hg', ho'⟩ := h'
      obtain ⟨hets, rfl, hots⟩ := Phrase.append_inj hg hg' (by rw [hk]; decide)
        (by rw [hk']; decide) hexpr hts
      rw [Phrase.eq_of_expr_eq e f hg hg' hexpr hets,
        Arguments.eq_of_exprs_eq others others' ho ho' hrest hots]
end

/-- Whole phrases with the same tokens are the same. -/
theorem Phrase.Whole.eq_of_tokens_eq {p : Precedence} {e f : Phrase} (he : e.Whole p)
    (hf : f.Whole p) (h : e.tokens = f.tokens) : e = f := by
  let l : Limits := Limits.raise {} e.tokens.length
  have hroomy : l.Roomy e.tokens.length := Limits.roomy_raise _ _
  have hparse : (Parser.parse p l none e.tokens).1 = .ok e.expr :=
    Parser.parse_of_fits he (Parser.fits_of_roomy hroomy)
  have hparse' : (Parser.parse p l none f.tokens).1 = .ok f.expr :=
    Parser.parse_of_fits hf (Parser.fits_of_roomy (h ▸ hroomy))
  rw [h, hparse'] at hparse
  exact Phrase.eq_of_expr_eq e f he.grammatical hf.grammatical (Except.ok.inj hparse).symm h

end Reckon
