import Reckon.Expr.Printer
import Reckon.Proofs.Expr.Parsing
import Reckon.Proofs.Token.Pieces
import Reckon.Proofs.Token.Scanning
/-
  Expressions that are printed and read again. The text of a tree has parentheses around every
  operator with its operands, so the phrase that it spells has groups for operands and nothing
  depends on levels any more, but for one thing: inside its group an operator has to go on at the
  lowest level. What the text spells, it spells wherever it stands (`Expr.exists_spells`): its words
  have boundaries behind them, and are the words that they were in the text that the tree was read
  from.

  The main statement is `Expr.ofSource_toText`: what is read is the tree that was printed, or it is
  too large.
-/
namespace Reckon

/-! ## Scanning by parts -/

namespace Lexeme

variable {operators : OperatorTrie}

/-- Pieces without anything wrong. -/
def Sound (pieces : List Lexeme) : Prop :=
  ∀ piece ∈ pieces, ∀ problems, piece.role ≠ .malformed problems

theorem details_of_sound {pieces : List Lexeme} (h : Sound pieces) (position : Nat) :
    details position pieces = [] := by
  induction pieces generalizing position with
  | nil => rfl
  | cons piece pieces ih =>
    have hrest := ih (fun x hx => h x (List.mem_cons_of_mem _ hx)) (position + piece.text.length)
    rw [details, hrest]
    cases hrole : piece.role with
    | blank => rfl
    | token kind => rfl
    | malformed problems => exact absurd hrole (h piece (List.mem_cons_self ..) problems)

/-- A part of a text that starts at `position` has tokens of its own, in front of any boundary. -/
def Scans (operators : OperatorTrie) (position : Nat) (cs : List Char) (ts : List Token) : Prop :=
  ∃ pieces, Sound pieces ∧ pieces.flatMap Lexeme.text = cs ∧ tokens position pieces = ts
    ∧ ∀ rest, Bounded rest → split operators 0 (cs ++ rest) = pieces ++ split operators 0 rest

theorem scans_nil (position : Nat) : Scans operators position [] [] :=
  ⟨[], List.forall_mem_nil _, rfl, rfl, fun _ _ => rfl⟩

theorem Scans.append {position : Nat} {cs cs' : List Char} {ts ts' : List Token}
    (h : Scans operators position cs ts) (h' : Scans operators (position + cs.length) cs' ts')
    (hb : Bounded cs') : Scans operators position (cs ++ cs') (ts ++ ts') := by
  obtain ⟨as, hsound, rfl, rfl, hsplit⟩ := h
  obtain ⟨bs, hsound', rfl, rfl, hsplit'⟩ := h'
  refine ⟨as ++ bs, ?_, List.flatMap_append, tokens_append _ _ _, fun rest hrest => ?_⟩
  · intro piece hpiece
    rcases List.mem_append.1 hpiece with hpiece | hpiece
    · exact hsound piece hpiece
    · exact hsound' piece hpiece
  · have hbounded : Bounded (bs.flatMap Lexeme.text ++ rest) := by
      cases htext : bs.flatMap Lexeme.text with
      | nil => exact hrest
      | cons c cs =>
        rw [htext] at hb
        exact bounded_cons (hb c rfl)
    rw [List.append_assoc, hsplit _ hbounded, hsplit' rest hrest, List.append_assoc]

/-- A piece of one character that ends by itself. -/
theorem Scans.cons {c : Char} {role : Role} {position : Nat} {cs : List Char} {ts : List Token}
    (hc : ∀ rest, split operators 0 (c :: rest) = ⟨[c], role⟩ :: split operators 0 rest)
    (hrole : ∀ problems, role ≠ .malformed problems) (h : Scans operators (position + 1) cs ts) :
    Scans operators position (c :: cs) (tokens position [⟨[c], role⟩] ++ ts) := by
  obtain ⟨pieces, hsound, rfl, rfl, hsplit⟩ := h
  refine ⟨⟨[c], role⟩ :: pieces, ?_, rfl, tokens_append position [⟨[c], role⟩] pieces,
    fun rest hrest => ?_⟩
  · intro piece hpiece
    rcases List.mem_cons.1 hpiece with rfl | hpiece
    · exact hrole
    · exact hsound piece hpiece
  · rw [List.cons_append, hc, hsplit rest hrest, List.cons_append]

theorem Scans.space {position : Nat} {cs : List Char} {ts : List Token}
    (h : Scans operators (position + 1) cs ts) : Scans operators position (' ' :: cs) ts :=
  h.cons split_space (by simp)

theorem Scans.opening {position : Nat} {cs : List Char} {ts : List Token}
    (h : Scans operators (position + 1) cs ts) :
    Scans operators position ('(' :: cs) (⟨.parenthesis, "(", position⟩ :: ts) :=
  h.cons split_opening (by simp)

theorem Scans.closing {position : Nat} {cs : List Char} {ts : List Token}
    (h : Scans operators (position + 1) cs ts) :
    Scans operators position (')' :: cs) (⟨.parenthesis, ")", position⟩ :: ts) :=
  h.cons split_closing (by simp)

theorem Scans.comma {position : Nat} {cs : List Char} {ts : List Token}
    (h : Scans operators (position + 1) cs ts) :
    Scans operators position (',' :: cs) (⟨.comma, ",", position⟩ :: ts) :=
  h.cons split_comma (by simp)

/-- A word that is a token. -/
theorem Lexes.scans {kind : Token.Kind} {text : String}
    (h : Lexes operators kind text.toList) (hops : operators.Plain) (position : Nat) :
    Scans operators position text.toList [⟨kind, text, position⟩] := by
  refine ⟨[⟨text.toList, .token kind⟩], ?_, ?_, ?_, fun rest hrest => h.split hops hrest⟩
  · intro piece hpiece
    obtain rfl := List.mem_singleton.1 hpiece
    intro problems hrole
    cases hrole
  · rw [List.flatMap_cons, List.flatMap_nil, List.append_nil]
  · simp only [tokens, String.ofList_toList]

/-- A text that scans as a whole. -/
theorem Scans.ofText {text : String} {ts : List Token}
    (h : Scans operators 0 text.toList ts) : Scan.ofText operators text = ⟨ts, []⟩ := by
  obtain ⟨pieces, hsound, -, rfl, hsplit⟩ := h
  have hpieces : Lexeme.ofText operators text.toList = pieces := by
    have := hsplit [] bounded_nil
    rw [List.append_nil, split, List.append_nil] at this
    exact this
  simp only [Scan.ofText, hpieces, details_of_sound hsound]

end Lexeme

/-! ## Trees that can be written -/

mutual
/-- The words of a tree are tokens of the right kinds, and its operators have levels. -/
def Expr.Writable (operators : OperatorTrie) (p : Precedence) : Expr → Prop
  | .constant text _ => Lexeme.Lexes operators .constant text.toList
  | .var name _ => Lexeme.Lexes operators .identifier name.toList
  | .unary op e _ =>
    Lexeme.Lexes operators .operator op.toList ∧ (∃ level, p.unaryLevel op = some level)
      ∧ e.Writable operators p
  | .binary op l r _ =>
    Lexeme.Lexes operators .operator op.toList ∧ p.Takes Precedence.lowest op
      ∧ l.Writable operators p ∧ r.Writable operators p
  | .call name args _ =>
    Lexeme.Lexes operators .identifier name.toList ∧ WritableAll operators p args
  | .unknown .. => False

def Expr.WritableAll (operators : OperatorTrie) (p : Precedence) : List Expr → Prop
  | [] => True
  | e :: es => e.Writable operators p ∧ WritableAll operators p es
end

section

variable {operators : OperatorTrie} {p : Precedence}

mutual
/-- What is read from a text can be written. -/
theorem Phrase.writable (hp : ∀ op level, p.binaryLevel op = some level →
      p.Takes Precedence.lowest op) (e : Phrase) (he : e.Grammatical p)
    (hts : ∀ t ∈ e.tokens, Lexeme.Lexes operators t.kind t.text.toList) :
    e.expr.Writable operators p := by
  match e, he with
  | .constant t, he =>
    have ht := hts t (List.mem_cons_self ..)
    rw [show t.kind = .constant from he] at ht
    exact ht
  | .name t, he =>
    have ht := hts t (List.mem_cons_self ..)
    rw [show t.kind = .identifier from he] at ht
    exact ht
  | .unary op e, ⟨hk, ⟨level, hl, _⟩, he⟩ =>
    have hop := hts op (List.mem_cons_self ..)
    rw [hk] at hop
    exact ⟨hop, ⟨level, hl⟩,
      Phrase.writable hp e he fun t ht => hts t (List.mem_cons_of_mem _ ht)⟩
  | .binary l op r, ⟨hk, ⟨level, hl, _⟩, _, hgl, hgr⟩ =>
    rw [Phrase.tokens, List.forall_mem_append, List.forall_mem_cons] at hts
    obtain ⟨htl, hop, htr⟩ := hts
    rw [hk] at hop
    exact ⟨hop, hp op.text level hl, Phrase.writable hp l hgl htl, Phrase.writable hp r hgr htr⟩
  | .group a e b, ⟨_, _, _, he⟩ =>
    rw [Phrase.tokens, List.forall_mem_cons, List.forall_mem_append] at hts
    exact Phrase.writable hp e he hts.2.1
  | .nullary n a b, ⟨hk, _, _⟩ =>
    have hn := hts n (List.mem_cons_self ..)
    rw [hk] at hn
    exact ⟨hn, trivial⟩
  | .call n a args, ⟨hk, _, hargs⟩ =>
    rw [Phrase.tokens, List.forall_mem_cons, List.forall_mem_cons] at hts
    obtain ⟨hn, -, hts⟩ := hts
    rw [hk] at hn
    exact ⟨hn, Arguments.writable hp args hargs hts⟩

theorem Arguments.writable (hp : ∀ op level, p.binaryLevel op = some level →
      p.Takes Precedence.lowest op) (args : Arguments) (h : args.Grammatical p)
    (hts : ∀ t ∈ args.tokens, Lexeme.Lexes operators t.kind t.text.toList) :
    Expr.WritableAll operators p args.exprs := by
  match args, h with
  | .last e b, ⟨_, _, he⟩ =>
    rw [Arguments.tokens, List.forall_mem_append] at hts
    exact ⟨Phrase.writable hp e he hts.1, trivial⟩
  | .more e comma others, ⟨_, _, he, ho⟩ =>
    rw [Arguments.tokens, List.forall_mem_append, List.forall_mem_cons] at hts
    exact ⟨Phrase.writable hp e he hts.1, Arguments.writable hp others ho hts.2.2⟩
end

/-! ## What a tree spells -/

mutual
/-- The frames that the text of a tree opens at once: an operator opens one for its parentheses and
one for its right operand or its only one, a call one for each argument. -/
def Expr.bracketing : Expr → Nat
  | .constant .. => 0
  | .var .. => 0
  | .unary _ e _ => e.bracketing + 2
  | .binary _ l r _ => max (l.bracketing + 1) (r.bracketing + 2)
  | .call _ args _ => bracketingAll args
  | .unknown .. => 0

def Expr.bracketingAll : List Expr → Nat
  | [] => 0
  | e :: es => max (e.bracketing + 1) (bracketingAll es)
end

/-- A phrase that a text spells at a position: it denotes the tree, and it has no sides that levels
could matter for. -/
structure Spells (operators : OperatorTrie) (p : Precedence) (position : Nat) (e : Expr)
    (text : String) (f : Phrase) : Prop where
  grammatical : f.Grammatical p
  leftSpine : f.leftSpine = []
  rightSpine : f.rightSpine p = []
  nesting : f.nesting = e.bracketing
  same : f.expr.bare = e.bare
  scans : Lexeme.Scans operators position text.toList f.tokens

/-- The same for arguments with commas between them and a parenthesis behind them. -/
structure SpellsAll (operators : OperatorTrie) (p : Precedence) (position : Nat) (es : List Expr)
    (texts : List String) (args : Arguments) : Prop where
  texts_ne_nil : texts ≠ []
  grammatical : args.Grammatical p
  nesting : args.nesting = Expr.bracketingAll es
  same : Expr.bareAll args.exprs = Expr.bareAll es
  scans : Lexeme.Scans operators position ((String.intercalate ", " texts).toList ++ [')'])
    args.tokens

theorem Spells.openAt {position : Nat} {e : Expr} {text : String} {f : Phrase}
    (h : Spells operators p position e text f) (floor : Level) : f.OpenAt p floor := by
  intro op hop
  rw [h.leftSpine] at hop
  exact absurd hop List.not_mem_nil

theorem Spells.leavesTo {position : Nat} {e : Expr} {text : String} {f : Phrase}
    (h : Spells operators p position e text f) (op : String) : f.LeavesTo p op := by
  intro level hlevel
  rw [h.rightSpine] at hlevel
  exact absurd hlevel List.not_mem_nil

/-- A prefix operator with its operand, in parentheses. -/
theorem Spells.unary {position : Nat} {op text : String} {e : Expr} {f : Phrase} (pos : Int)
    (hops : operators.Plain) (hop : Lexeme.Lexes operators .operator op.toList) {level : Level}
    (hlevel : p.unaryLevel op = some level)
    (h : Spells operators p (position + 1 + op.toList.length + 1) e text f) :
    ∃ f', Spells operators p position (.unary op e pos) ("(" ++ op ++ " " ++ text ++ ")") f' := by
  let stop := position + 1 + op.toList.length + 1 + text.toList.length
  let f' : Phrase := .group ⟨.parenthesis, "(", position⟩
    (.unary ⟨.operator, op, (position + 1 : Nat)⟩ f) ⟨.parenthesis, ")", stop⟩
  have hscans : Lexeme.Scans operators position
      ('(' :: (op.toList ++ ' ' :: (text.toList ++ [')']))) f'.tokens := by
    have hclose : Lexeme.Scans operators stop [')'] [⟨.parenthesis, ")", stop⟩] :=
      .closing (Lexeme.scans_nil _)
    have hoperand := h.scans.append hclose (Lexeme.bounded_cons rfl)
    have hword := hop.scans hops (position + 1)
    exact .opening (hword.append (.space hoperand) (Lexeme.bounded_cons rfl))
  have hopen : f'.Grammatical p :=
    ⟨rfl, rfl, List.forall_mem_nil _, rfl, ⟨level, hlevel, h.openAt level⟩, h.grammatical⟩
  refine ⟨f', hopen, rfl, rfl, ?_, ?_, ?_⟩
  · show f.nesting + 1 + 1 = e.bracketing + 2
    rw [h.nesting]
  · show Expr.unary op f.expr.bare 0 = .unary op e.bare 0
    rw [h.same]
  · simpa [String.toList_append] using hscans

theorem Spells.binary {position : Nat} {op text text' : String} {l r : Expr} {f g : Phrase}
    (pos : Int) (hops : operators.Plain) (hop : Lexeme.Lexes operators .operator op.toList)
    (htakes : p.Takes Precedence.lowest op)
    (hl : Spells operators p (position + 1) l text f)
    (hr : Spells operators p
      (position + 1 + text.toList.length + 1 + op.toList.length + 1) r text' g) :
    ∃ f', Spells operators p position (.binary op l r pos)
      ("(" ++ text ++ " " ++ op ++ " " ++ text' ++ ")") f' := by
  let start := position + 1 + text.toList.length + 1
  let stop := start + op.toList.length + 1 + text'.toList.length
  let f' : Phrase := .group ⟨.parenthesis, "(", position⟩
    (.binary f ⟨.operator, op, start⟩ g) ⟨.parenthesis, ")", stop⟩
  have hscans : Lexeme.Scans operators position ('(' :: (text.toList ++
      ' ' :: (op.toList ++ ' ' :: (text'.toList ++ [')'])))) f'.tokens := by
    have hclose : Lexeme.Scans operators stop [')'] [⟨.parenthesis, ")", stop⟩] :=
      .closing (Lexeme.scans_nil _)
    have hright := hr.scans.append hclose (Lexeme.bounded_cons rfl)
    have hword := (hop.scans hops start).append (.space hright) (Lexeme.bounded_cons rfl)
    have hleft := hl.scans.append (.space hword) (Lexeme.bounded_cons rfl)
    have htokens : f'.tokens = ⟨.parenthesis, "(", position⟩ :: (f.tokens ++
        ([⟨.operator, op, start⟩] ++ (g.tokens ++ [⟨.parenthesis, ")", stop⟩]))) := by
      simp [f', Phrase.tokens]
    rw [htokens]
    exact .opening hleft
  obtain ⟨level, hlevel, -⟩ := htakes.exists_level
  refine ⟨f', ⟨rfl, rfl, ?_, rfl, ⟨level, hlevel, hr.openAt level⟩, hl.leavesTo op,
    hl.grammatical, hr.grammatical⟩, rfl, rfl, ?_, ?_, ?_⟩
  · intro q hq
    rw [Phrase.leftSpine, hl.leftSpine, List.mem_singleton] at hq
    rw [hq]
    exact htakes
  · show max f.nesting (g.nesting + 1) + 1 = max (l.bracketing + 1) (r.bracketing + 2)
    rw [hl.nesting, hr.nesting]
    omega
  · show Expr.binary op f.expr.bare g.expr.bare 0 = .binary op l.bare r.bare 0
    rw [hl.same, hr.same]
  · simpa [String.toList_append] using hscans

mutual
/-- The text of a tree that can be written spells a phrase that denotes the tree, wherever it
stands. -/
theorem Expr.exists_spells (hops : operators.Plain) (e : Expr) (he : e.Writable operators p)
    (position : Nat) : ∃ text f, e.toText = .ok text ∧ Spells operators p position e text f := by
  match e, he with
  | .constant text _, he =>
    exact ⟨text, .constant ⟨.constant, text, position⟩, rfl, rfl, rfl, rfl, rfl, rfl,
      he.scans hops position⟩
  | .var name _, he =>
    exact ⟨name, .name ⟨.identifier, name, position⟩, rfl, rfl, rfl, rfl, rfl, rfl,
      he.scans hops position⟩
  | .unary op e pos, ⟨hop, ⟨level, hlevel⟩, he⟩ =>
    obtain ⟨text, f, htext, h⟩ :=
      Expr.exists_spells hops e he (position + 1 + op.toList.length + 1)
    obtain ⟨f', h'⟩ := Spells.unary pos hops hop hlevel h
    exact ⟨_, f', by rw [Expr.toText, htext]; rfl, h'⟩
  | .binary op l r pos, ⟨hop, htakes, hl, hr⟩ =>
    obtain ⟨text, f, htext, h⟩ := Expr.exists_spells hops l hl (position + 1)
    obtain ⟨text', g, htext', h'⟩ := Expr.exists_spells hops r hr
      (position + 1 + text.toList.length + 1 + op.toList.length + 1)
    obtain ⟨f', h''⟩ := Spells.binary pos hops hop htakes h h'
    exact ⟨_, f', by rw [Expr.toText, htext, htext']; rfl, h''⟩
  | .call name [] pos, ⟨hname, _⟩ =>
    let start := position + name.toList.length
    let f : Phrase := .nullary ⟨.identifier, name, position⟩ ⟨.parenthesis, "(", start⟩
      ⟨.parenthesis, ")", (start + 1 : Nat)⟩
    have hscans : Lexeme.Scans operators position (name.toList ++ ['(', ')']) f.tokens :=
      (hname.scans hops position).append (.opening (.closing (Lexeme.scans_nil _)))
        (Lexeme.bounded_cons rfl)
    refine ⟨_, f, rfl, ⟨rfl, rfl, rfl⟩, rfl, rfl, rfl, rfl, ?_⟩
    simpa [String.toList_append] using hscans
  | .call name (e :: es) pos, ⟨hname, hes⟩ =>
    let start := position + name.toList.length
    obtain ⟨texts, args, htexts, h⟩ :=
      Expr.exists_spellsAll hops (e :: es) (List.cons_ne_nil _ _) hes (start + 1)
    let f : Phrase := .call ⟨.identifier, name, position⟩ ⟨.parenthesis, "(", start⟩ args
    have hscans : Lexeme.Scans operators position
        (name.toList ++ '(' :: ((String.intercalate ", " texts).toList ++ [')'])) f.tokens :=
      (hname.scans hops position).append (.opening h.scans) (Lexeme.bounded_cons rfl)
    refine ⟨name ++ "(" ++ String.intercalate ", " texts ++ ")", f, ?_,
      ⟨rfl, rfl, h.grammatical⟩, rfl, rfl, h.nesting, ?_, ?_⟩
    · rw [Expr.toText, htexts]
      rfl
    · show Expr.call name (Expr.bareAll args.exprs) 0 = .call name (Expr.bareAll (e :: es)) 0
      rw [h.same]
    · simpa [String.toList_append] using hscans

/-- So do the texts of arguments with commas between them. -/
theorem Expr.exists_spellsAll (hops : operators.Plain) (es : List Expr) (hne : es ≠ [])
    (hes : Expr.WritableAll operators p es) (position : Nat) :
    ∃ texts args, Expr.argTexts es = .ok texts ∧ SpellsAll operators p position es texts args := by
  match es, hes with
  | [e], ⟨he, _⟩ =>
    obtain ⟨text, f, htext, h⟩ := Expr.exists_spells hops e he position
    have hclose : Lexeme.Scans operators (position + text.toList.length) [')']
        [⟨.parenthesis, ")", (position + text.toList.length : Nat)⟩] :=
      .closing (Lexeme.scans_nil _)
    refine ⟨[text], .last f ⟨.parenthesis, ")", (position + text.toList.length : Nat)⟩, ?_,
      List.cons_ne_nil _ _, ⟨rfl, h.openAt _, h.grammatical⟩, ?_, ?_, ?_⟩
    · rw [Expr.argTexts, Expr.argTexts, htext]
      rfl
    · show f.nesting + 1 = max (e.bracketing + 1) 0
      rw [h.nesting]
      omega
    · show [f.expr.bare] = [e.bare]
      rw [h.same]
    · rw [String.intercalate_singleton]
      exact h.scans.append hclose (Lexeme.bounded_cons rfl)
  | e :: e' :: es, ⟨he, hes⟩ =>
    obtain ⟨text, f, htext, h⟩ := Expr.exists_spells hops e he position
    let comma := position + text.toList.length
    obtain ⟨texts, args, htexts, h'⟩ :=
      Expr.exists_spellsAll hops (e' :: es) (List.cons_ne_nil _ _) hes (comma + 1 + 1)
    refine ⟨text :: texts, .more f ⟨.comma, ",", comma⟩ args, ?_, List.cons_ne_nil _ _,
      ⟨rfl, h.openAt _, h.grammatical, h'.grammatical⟩, ?_, ?_, ?_⟩
    · rw [Expr.argTexts, htext, htexts]
      rfl
    · show max (f.nesting + 1) args.nesting
        = max (e.bracketing + 1) (Expr.bracketingAll (e' :: es))
      rw [h.nesting, h'.nesting]
    · show f.expr.bare :: Expr.bareAll args.exprs = e.bare :: Expr.bareAll (e' :: es)
      rw [h.same, h'.same]
    · have hscans := h.scans.append (.comma (.space h'.scans)) (Lexeme.bounded_cons rfl)
      have htext : (text ++ ", " ++ String.intercalate ", " texts).toList ++ [')']
          = text.toList ++ ',' :: ' ' :: ((String.intercalate ", " texts).toList ++ [')']) := by
        simp [String.toList_append]
      rw [String.intercalate_cons_of_ne_nil h'.texts_ne_nil, htext]
      exact hscans
end

end

/-! ## Reading what was printed -/

/-- A text that scans as a whole has its tokens, or it is too long. -/
theorem Token.ofText_of_scans {operators : OperatorTrie} {text : String} {ts : List Token}
    (h : Lexeme.Scans operators 0 text.toList ts) (limits : Limits) :
    Token.ofText operators limits text = .ok ts
      ∨ ∃ f, Token.ofText operators limits text = .error f ∧ f.IsLimit := by
  unfold Token.ofText
  by_cases hlen : (text.toList.length : Int) ≤ limits.expressionLength
  · left
    have hcheck : limits.check .expressionLength text.toList.length = .ok () :=
      Parser.check_of_le hlen
    rw [hcheck, h.ofText]
    rfl
  · right
    refine ⟨.error (.ofLimit limits .expressionLength text.toList.length none none), ?_, rfl⟩
    have hcheck : limits.check .expressionLength text.toList.length
        = .error (.error (.ofLimit limits .expressionLength text.toList.length none none)) :=
      Parser.check_of_lt (Int.not_le.1 hlen)
    rw [hcheck]
    rfl

/-- All tokens of a text are words that are tokens. -/
theorem Token.lexes_of_ofText {operators : OperatorTrie} {limits : Limits} {text : String}
    {ts : List Token} (h : Token.ofText operators limits text = .ok ts) :
    ∀ t ∈ ts, Lexeme.Lexes operators t.kind t.text.toList := by
  unfold Token.ofText at h
  obtain ⟨_, -, hresult⟩ := exists_of_bind_eq_ok h
  unfold Scan.result at hresult
  split at hresult
  · obtain rfl := Except.ok.inj hresult
    exact fun t ht => Lexeme.lexes_of_mem_tokens ht
  · exact absurd hresult (by simp)

/-- What a text denotes has a text that denotes it again: reading that text gives the same tree up to
positions, or it exceeds a limit. Operators hold no blanks, parentheses and commas, and no operator
between two operands is as low as a whole expression. -/
theorem Expr.ofSource_toText {text : String} {levels : Precedence.Source} {operators : Datum}
    {limits : Limits} {e : Expr} (h : Expr.ofSource text levels operators limits = .ok e)
    (hops : operators.PlainOperators)
    (hlevels : ∀ p, Precedence.ofSource levels = .ok p → p.Raised) :
    ∃ printed, e.toText = .ok printed
      ∧ ((∃ e', Expr.ofSource printed levels operators limits = .ok e' ∧ e'.Same e)
        ∨ ∃ f, Expr.ofSource printed levels operators limits = .error f ∧ f.IsLimit) := by
  cases hcreate : Scanner.create (.str text) operators limits with
  | error f =>
    unfold Expr.ofSource at h
    rw [hcreate] at h
    exact absurd h (by simp)
  | ok s =>
    obtain ⟨hall, hplain⟩ := Scanner.create_text hcreate
    rw [Expr.ofSource_eq levels (hall text)] at h
    obtain ⟨ts, htokens, h⟩ := exists_of_bind_eq_ok h
    cases hp : Precedence.ofSource levels with
    | error f =>
      rw [hp] at h
      exact absurd h (by simp)
    | ok p =>
      rw [hp] at h
      obtain ⟨f, hf, rfl, rfl⟩ := Parser.of_parse_eq_ok h
      have hwritable : f.expr.Writable s.operators p :=
        f.writable (fun op level hl => (hlevels p hp).takes hl) hf.grammatical
          (Token.lexes_of_ofText htokens)
      obtain ⟨printed, f', hprinted, hspells⟩ :=
        Expr.exists_spells (hplain hops) f.expr hwritable 0
      refine ⟨printed, hprinted, ?_⟩
      rw [Expr.ofSource_eq levels (hall printed), hp]
      rcases Token.ofText_of_scans hspells.scans limits with hts | ⟨err, herr, hlimit⟩
      · rw [hts]
        have hwhole : f'.Whole p := ⟨hspells.openAt _, hspells.grammatical⟩
        rcases Parser.parse_of_whole hwhole with hparse | ⟨err, herr, hlimit⟩
        · exact Or.inl ⟨f'.expr, hparse, hspells.same⟩
        · exact Or.inr ⟨err, herr, hlimit⟩
      · rw [herr]
        exact Or.inr ⟨err, rfl, hlimit⟩

/-- Tables with a prefix operator that starts like a number. -/
def Precedence.counting : Precedence where
  unary := [("1+", .int 5)]
  binary := [("-", .int 1)]
  rightAssociative := []

theorem Precedence.raised_counting : counting.Raised :=
  raised_of_mem (by simp [counting])

theorem Expr.ofSource_toText_counting :
    Expr.ofSource "1+a-1.5" (.table Precedence.counting) (.list [.str "1+", .str "-"]) {}
        = .ok (.binary "-" (.unary "1+" (.var "a" 2) 0) (.constant "1.5" 4) 3)
      ∧ ∃ printed, (Expr.binary "-" (.unary "1+" (.var "a" 2) 0) (.constant "1.5" 4) 3).toText
          = .ok printed
        ∧ ((∃ e', Expr.ofSource printed (.table Precedence.counting)
              (.list [.str "1+", .str "-"]) {} = .ok e'
            ∧ e'.Same (.binary "-" (.unary "1+" (.var "a" 2) 0) (.constant "1.5" 4) 3))
          ∨ ∃ f, Expr.ofSource printed (.table Precedence.counting)
              (.list [.str "1+", .str "-"]) {} = .error f ∧ f.IsLimit) := by
  have hread : Expr.ofSource "1+a-1.5" (.table Precedence.counting)
      (.list [.str "1+", .str "-"]) {}
        = .ok (.binary "-" (.unary "1+" (.var "a" 2) 0) (.constant "1.5" 4) 3) := rfl
  have hops : (Datum.list [.str "1+", .str "-"]).PlainOperators := by
    intro items hitems op hop
    obtain rfl : [.str "1+", .str "-"] = items := Option.some.inj hitems
    simp only [List.mem_cons, Datum.str.injEq, List.not_mem_nil, or_false] at hop
    rcases hop with rfl | rfl
    · intro c hc
      have hmem : c ∈ ['1', '+'] := hc
      simp only [List.mem_cons, List.not_mem_nil, or_false] at hmem
      rcases hmem with rfl | rfl
      · decide
      · decide
    · intro c hc
      have hmem : c ∈ ['-'] := hc
      rw [List.mem_singleton.1 hmem]
      decide
  refine ⟨hread, Expr.ofSource_toText hread hops fun p hp => ?_⟩
  obtain rfl := Except.ok.inj hp
  exact Precedence.raised_counting

end Reckon
