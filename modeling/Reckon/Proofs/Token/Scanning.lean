import Reckon.Expr.Reader
import Reckon.Proofs.Outcome
import Reckon.Proofs.Token.Boundary
/-
  Scanners and their operators. The words of a trie are the operators that were entered
  (`OperatorTrie.has_ofList`), and a scanner that has been made for one text is the scanner for
  any other text but for the text itself (`Scanner.create_text`). So the tokens of a text depend on
  the operators only through one trie (`Scanner.tokensOf_eq`, `Expr.ofSource_eq`).
-/
namespace Reckon

/-! ## Operators -/

namespace OperatorTrie

theorem has_insert_iff (t : OperatorTrie) (op : String) {w : List Char} (hw : w ≠ []) :
    (t.insert op).root.has w = true ↔ t.root.has w = true ∨ String.ofList w = op := by
  show (t.root.insert op.toList).has w = true ↔ _
  by_cases hop : op.toList = []
  · have hne : String.ofList w ≠ op := by
      rintro rfl
      rw [String.toList_ofList] at hop
      exact hw hop
    have hsame : t.root.insert op.toList = t.root := by
      rw [hop]
      cases t.root with
      | empty => rfl
      | node => rfl
    rw [hsame]
    exact ⟨Or.inl, fun h => h.resolve_right hne⟩
  · rw [Trie.has_insert _ _ _ hop, Bool.or_eq_true, decide_eq_true_iff]
    refine or_congr_right ⟨?_, ?_⟩
    · rintro rfl
      exact String.ofList_toList
    · rintro rfl
      exact String.toList_ofList.symm

theorem has_foldl_iff {ops : List String} {t : OperatorTrie} {w : List Char} (hw : w ≠ []) :
    (ops.foldl insert t).root.has w = true ↔ t.root.has w = true ∨ String.ofList w ∈ ops := by
  induction ops generalizing t with
  | nil => simp
  | cons op ops ih => rw [List.foldl_cons, ih, has_insert_iff t op hw, or_assoc, List.mem_cons]

/-- The words of a trie are its operators. -/
theorem has_ofList {ops : List String} {w : List Char} :
    (ofList ops).root.has w = true ↔ w ≠ [] ∧ String.ofList w ∈ ops := by
  by_cases hw : w = []
  · rw [hw, Trie.has_nil]
    simp
  · rw [ofList, has_foldl_iff hw]
    simp [empty, Trie.has, hw]

theorem plain_ofList {ops : List String}
    (h : ∀ op ∈ ops, ∀ c ∈ op.toList, Lexeme.isBoundary c = false) : (ofList ops).Plain := by
  intro w hw c hc
  refine h _ (has_ofList.1 hw).2 c ?_
  rwa [String.toList_ofList]

theorem plain_default : (ofList defaultOperators).Plain := by
  have hall : (defaultOperators.all fun op =>
      op.toList.all fun c => !Lexeme.isBoundary c) = true := by decide
  refine plain_ofList fun op hop => ?_
  exact Lexeme.isBoundary_eq_false_of_all (List.all_eq_true.1 hall op hop)

end OperatorTrie

theorem Datum.of_operator {d : Datum} {op : String} (h : d.operator? = .ok op) : d = .str op := by
  cases d with
  | str text =>
    unfold Datum.operator? at h
    by_cases ht : text = ""
    · simp [ht] at h
    · simp only [ht, if_false, Except.ok.injEq] at h
      rw [h]
  | none | bool | int | float | list | dict => exact absurd h (by simp [Datum.operator?])

/-- Operators that are read are texts of the list. -/
theorem Datum.mem_of_operators {items : List Datum} {ops : List String}
    (h : Datum.operators? items = .ok ops) {op : String} (hop : op ∈ ops) : .str op ∈ items := by
  induction items generalizing ops with
  | nil =>
    obtain rfl : [] = ops := Except.ok.inj h
    exact absurd hop List.not_mem_nil
  | cons d items ih =>
    unfold Datum.operators? at h ih
    rw [List.mapM_cons] at h
    obtain ⟨s, hd, h⟩ := exists_of_bind_eq_ok h
    obtain ⟨rest, hrest, h⟩ := exists_of_bind_eq_ok h
    obtain rfl : s :: rest = ops := Except.ok.inj h
    rcases List.mem_cons.1 hop with rfl | hop
    · rw [Datum.of_operator hd]
      exact List.mem_cons_self ..
    · exact List.mem_cons_of_mem _ (ih hrest hop)

/-- An operator list whose operators hold no blank, parenthesis or comma. -/
def Datum.PlainOperators (d : Datum) : Prop :=
  ∀ items, d.items? = some items → ∀ op, .str op ∈ items → ∀ c ∈ op.toList,
    CharClass.isWhitespace c = false ∧ CharClass.isParenthesis c = false ∧ c ≠ ','

theorem Lexeme.isBoundary_eq_false {c : Char} (hw : CharClass.isWhitespace c = false)
    (hp : CharClass.isParenthesis c = false) (hc : c ≠ ',') : isBoundary c = false := by
  unfold isBoundary
  have hspace : (c == ' ') = false := by
    unfold CharClass.isWhitespace at hw
    simp only [Bool.or_eq_false_iff] at hw
    exact hw.1.1.1.1.1
  rw [hspace, hp, Bool.false_or, Bool.false_or, beq_eq_false_iff_ne]
  exact hc

/-! ## Texts -/

theorem Token.ofText_eq_error_of_long {operators : OperatorTrie} {limits : Limits} {text : String}
    (h : limits.expressionLength < text.toList.length) :
    ofText operators limits text
      = .error (.error (.ofLimit limits .expressionLength text.toList.length)) := by
  simp only [ofText, Limits.check, Limit.bound, h, if_true]
  rfl

/-- Within the limit, a text comes to the result of its scan. -/
theorem Token.ofText_of_short {operators : OperatorTrie} {limits : Limits} {text : String}
    (h : (text.toList.length : Int) ≤ limits.expressionLength) :
    ofText operators limits text = (Scan.ofText operators text).result text := by
  have hcheck : limits.check .expressionLength text.toList.length = .ok () := by
    simp only [Limits.check, Limit.bound, Int.not_lt.2 h, if_false]
    rfl
  rw [ofText, hcheck]
  rfl

theorem Scan.result_eq_ok_iff {s : Scan} {source : String} {ts : List Token} :
    s.result source = .ok ts ↔ s.details = [] ∧ s.tokens = ts := by
  unfold result
  cases s.details with
  | nil => simp
  | cons d ds => simp

theorem Scan.result_eq_error {s : Scan} {d : LexicalDetail} {ds : List LexicalDetail}
    (h : s.details = d :: ds) (source : String) :
    s.result source = .error (.error (Error.ofDetails d ds source)) := by
  rw [result, h]

/-! ## Scanners -/

namespace Scanner

/-- Nothing stands for the default operators, anything else has to be a collection. -/
theorem of_operatorItems {d : Datum} {given : Option (List Datum)}
    (h : operatorItems? d = .ok given) :
    (d = .none ∧ given = none) ∨ ∃ items, d.items? = some items ∧ given = some items := by
  rcases Classical.em (d = .none) with rfl | hd
  · exact Or.inl ⟨rfl, (Except.ok.inj h).symm⟩
  · right
    have hmap : operatorItems? d = d.items.map some := by
      cases d with
      | none => exact absurd rfl hd
      | bool | int | float | str | list | dict => rfl
    rw [hmap] at h
    unfold Datum.items at h
    cases hi : d.items? with
    | none =>
      rw [hi] at h
      exact absurd h (by simp [Except.map])
    | some items =>
      rw [hi] at h
      exact ⟨items, rfl, (Except.ok.inj h).symm⟩

theorem create_default (limits : Limits) (text : String) :
    create (.str text) .none limits
      = .ok ⟨limits, none, .ofList defaultOperators, some text, none⟩ := rfl

/-- The operators are set when a scanner is made, and again, without effect, when it is loaded. -/
theorem create_of_items {d : Datum} {items : List Datum} {ops : List String} (limits : Limits)
    (hitems : operatorItems? d = .ok (some items)) (hops : Datum.operators? items = .ok ops)
    (text : String) :
    create (.str text) d limits = .ok ⟨limits, some ops, .ofList ops, some text, none⟩ := by
  have hfirst : setItems ⟨limits, none, .ofList defaultOperators, none, none⟩ (some items)
      = .ok ⟨limits, some ops, .ofList ops, none, none⟩ := by
    simp only [setItems, hops, bind, Except.bind, reduceCtorEq, if_false]
  have hagain : setOperators ⟨limits, some ops, .ofList ops, none, none⟩ (.list items)
      = .ok ⟨limits, some ops, .ofList ops, none, none⟩ := by
    have hlist : operatorItems? (.list items) = .ok (some items) := rfl
    simp only [setOperators, hlist, setItems, hops, bind, Except.bind, if_true]
  simp only [create, hitems, hfirst, reset, hagain, bind, Except.bind]

/-- A scanner for one text is the scanner for any other text but for the text. -/
theorem create_text {d : Datum} {limits : Limits} {text : String} {s : Scanner}
    (h : create (.str text) d limits = .ok s) :
    (∀ text', create (.str text') d limits
        = .ok ⟨limits, s.given, s.operators, some text', none⟩)
      ∧ (d.PlainOperators → s.operators.Plain) := by
  cases hitems : operatorItems? d with
  | error f =>
    simp only [create, hitems, bind, Except.bind, reduceCtorEq] at h
  | ok given =>
    rcases of_operatorItems hitems with ⟨rfl, rfl⟩ | ⟨items, hd, rfl⟩
    · obtain rfl := Except.ok.inj (h.symm.trans (create_default limits text))
      exact ⟨create_default limits, fun _ => OperatorTrie.plain_default⟩
    · cases hops : Datum.operators? items with
      | error f =>
        simp only [create, hitems, setItems, hops, bind, Except.bind, reduceCtorEq] at h
      | ok ops =>
        obtain rfl := Except.ok.inj (h.symm.trans (create_of_items limits hitems hops text))
        refine ⟨create_of_items limits hitems hops, fun hplain => ?_⟩
        refine OperatorTrie.plain_ofList fun op hop c hc => ?_
        obtain ⟨hw, hp, hcomma⟩ := hplain items hd op (Datum.mem_of_operators hops hop) c hc
        exact Lexeme.isBoundary_eq_false hw hp hcomma

/-- The first run of a scanner. -/
theorem run_of_loaded (limits : Limits) (given : Option (List String)) (operators : OperatorTrie)
    (text : String) :
    (run ⟨limits, given, operators, some text, none⟩).1 = Token.ofText operators limits text := by
  simp only [run, Token.ofText, bind, Except.bind]
  cases limits.check .expressionLength text.toList.length with
  | error e => rfl
  | ok _ => rfl

/-- The operators that a scanner is made with: the items of a collection, or the default ones. -/
def operators? (d : Datum) : Except Fault (List String) := do
  match ← operatorItems? d with
  | none => .ok defaultOperators
  | some items => Datum.operators? items

/-- The tokens that a scanner finds which is made for a text. -/
def tokensOf (operators : Datum) (limits : Limits) (text : String) : Except Failure (List Token) :=
  match create (.str text) operators limits with
  | .error f => .error (.fault f)
  | .ok s => s.run.1

theorem tokensOf_eq {d : Datum} {ops : List String} (h : operators? d = .ok ops) (limits : Limits)
    (text : String) : tokensOf d limits text = Token.ofText (.ofList ops) limits text := by
  obtain ⟨given, hitems, h⟩ := exists_of_bind_eq_ok h
  rcases of_operatorItems hitems with ⟨rfl, rfl⟩ | ⟨items, -, rfl⟩
  · obtain rfl : defaultOperators = ops := Except.ok.inj h
    rw [tokensOf, create_default]
    exact run_of_loaded ..
  · rw [tokensOf, create_of_items limits hitems h text]
    exact run_of_loaded ..

/-- Where the operators are refused, no text has tokens. -/
theorem tokensOf_eq_error {d : Datum} {f : Fault} (h : operators? d = .error f) (limits : Limits)
    (text : String) : tokensOf d limits text = .error (.fault f) := by
  have hcreate : create (.str text) d limits = .error f := by
    unfold operators? at h
    cases hitems : operatorItems? d with
    | error f' =>
      rw [hitems] at h
      obtain rfl : f' = f := Except.error.inj h
      simp only [create, hitems, bind, Except.bind]
    | ok given =>
      rw [hitems] at h
      cases given with
      | none => exact absurd h (by simp [bind, Except.bind])
      | some items =>
        have hops : Datum.operators? items = .error f := h
        simp only [create, hitems, setItems, hops, bind, Except.bind]
  rw [tokensOf, hcreate]

end Scanner

/-- A text is scanned with the operators, and then parsed with the tables. -/
theorem Expr.ofSource_eq {d : Datum} {limits : Limits} {given : Option (List String)}
    {operators : OperatorTrie} {text : String} (levels : Precedence.Source)
    (h : Scanner.create (.str text) d limits
      = .ok ⟨limits, given, operators, some text, none⟩) :
    Expr.ofSource text levels d limits = (do
      let tokens ← Token.ofText operators limits text
      match Precedence.ofSource levels with
      | .error f => .error (.fault f)
      | .ok p => (Parser.parse p limits (some text) tokens).1) := by
  have hrun := Scanner.run_of_loaded limits given operators text
  unfold Expr.ofSource
  rw [h]
  show (do
    let tokens ← (Scanner.run ⟨limits, given, operators, some text, none⟩).1
    match Precedence.ofSource levels with
    | .error f => .error (.fault f)
    | .ok p => (Parser.parse p limits (some text) tokens).1) = _
  rw [hrun]

end Reckon
