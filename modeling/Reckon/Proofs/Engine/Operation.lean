import Reckon.Proofs.Engine.Blame
import Reckon.Proofs.Engine.Locality
import Reckon.Proofs.Engine.Registering
import Reckon.Proofs.Expr.Ordered
import Reckon.Proofs.Token.Blanks
import Reckon.Proofs.Value.Literals
/-
  Operators that are added and then used. An operator passes three stages that do not know of each
  other. The scanner finds it where nothing else begins, and there it is the longest operator. The
  parser goes on with it if its level is positive or it groups to the right. The evaluation looks
  its function up and calls it. `Engine.solve_addedOperator` puts the three together.
-/
namespace Reckon

open CharClass Lexeme

/-- A word that can stand for an operator between two literals with blanks around it: its
characters are no blanks, digits, parentheses or commas, and it does not begin like a name. -/
structure Symbolic (op : String) : Prop where
  ne_empty : op ≠ ""
  chars : ∀ c ∈ op.toList,
    isWhitespace c = false ∧ c.isDigit = false ∧ isParenthesis c = false ∧ c ≠ ','
  start : ∀ c ∈ op.toList.head?, isIdentifierStart c = false

instance (op : String) : Decidable (Symbolic op) :=
  decidable_of_iff
    (op ≠ "" ∧ (op.toList.all fun c =>
        !isWhitespace c && !c.isDigit && !isParenthesis c && c != ',') = true
      ∧ (op.toList.head?.all fun c => !isIdentifierStart c) = true)
    (by
      simp only [List.all_eq_true, Option.all_eq_true, Bool.and_eq_true, Bool.not_eq_true',
        bne_iff_ne, and_assoc]
      exact ⟨fun ⟨hne, hchars, hstart⟩ => ⟨hne, hchars, hstart⟩,
        fun h => ⟨h.ne_empty, h.chars, h.start⟩⟩)

theorem symbolic_default : ∀ op ∈ defaultOperators, Symbolic op := by
  have hall : (defaultOperators.all fun op => decide (Symbolic op)) = true := by decide
  exact fun op hop => of_decide_eq_true (List.all_eq_true.1 hall op hop)

/-! ## Scanning -/

section Scanning

variable {ops : List String} {op : String}

theorem Symbolic.toList_ne_nil (h : Symbolic op) : op.toList ≠ [] :=
  fun hnil => h.ne_empty (String.toList_eq_nil_iff.1 hnil)

/-- A word among symbolic words is one piece, an operator: no other word that stands at its start is
longer. -/
theorem Symbolic.ofText (h : Symbolic op) (hop : op ∈ ops) :
    Lexeme.ofText (.ofList ops) op.toList = [⟨op.toList, .token .operator⟩] := by
  have hmatch : (OperatorTrie.ofList ops).match? op.toList = some op.toList := by
    refine OperatorTrie.match?_eq_some_iff.2
      ⟨h.toList_ne_nil, List.prefix_rfl, ?_, fun u hu _ => hu.length_le⟩
    rwa [String.ofList_toList]
  have hchars := h.chars
  have hstart := h.start
  cases hcs : op.toList with
  | nil => exact absurd hcs h.toList_ne_nil
  | cons c cs =>
    rw [hcs] at hmatch hchars hstart
    obtain ⟨hblank, -, hparen, hcomma⟩ := hchars c (List.mem_cons_self ..)
    have hfirst : first (.ofList ops) c cs = ⟨c :: cs, .token .operator⟩ := by
      have hcomma : (c == ',') = false := beq_eq_false_iff_ne.2 hcomma
      simp only [first, hblank, hparen, hstart c rfl, hcomma, hmatch, Bool.false_eq_true, if_false]
    exact split_cons (List.append_nil _).symm hfirst

/-- Symbolic words stand at the start of no literal. -/
theorem ofText_of_digits (hops : ∀ o ∈ ops, Symbolic o) {ds : List Char}
    (hds : Digits Char.isDigit ds) : Lexeme.ofText (.ofList ops) ds = [⟨ds, .token .constant⟩] := by
  have hliteral : IsLiteral ds := Literal.isLiteral_iff_exists_denotes.2 ⟨_, .whole hds⟩
  refine ofText_of_isLiteral hliteral (OperatorTrie.match?_eq_none fun o ho hpre => ?_)
  cases hcs : o.toList with
  | nil => exact (hops o ho).toList_ne_nil hcs
  | cons c cs =>
    have hc : c ∈ o.toList := by rw [hcs]; exact List.mem_cons_self ..
    have hdigit := hds.2 c (hpre.subset hc)
    rw [((hops o ho).chars c hc).2.1] at hdigit
    exact absurd hdigit (by simp)

theorem Scan.ofText_of_piece {operators : OperatorTrie} {text : String} {kind : Token.Kind}
    (h : Lexeme.ofText operators text.toList = [⟨text.toList, .token kind⟩]) :
    Scan.ofText operators text = ⟨[⟨kind, text, 0⟩], []⟩ := by
  rw [Scan.ofText, h, Lexeme.tokens, Lexeme.tokens, Lexeme.details, Lexeme.details,
    String.ofList_toList]
  rfl

theorem unbroken_of_symbolic (hops : ∀ o ∈ ops, Symbolic o) :
    (OperatorTrie.ofList ops).Unbroken := by
  intro w hw c hc
  refine ((hops _ (OperatorTrie.has_ofList.1 hw).2).chars c ?_).1
  rwa [String.toList_ofList]

/-- The text of an operator between two literals. -/
def operationText (a op b : String) : String := a ++ " " ++ op ++ " " ++ b

/-- Its tokens. -/
def operationTokens (a op b : String) : List Token :=
  [⟨.constant, a, 0⟩, ⟨.operator, op, (a ++ " ").toList.length⟩,
    ⟨.constant, b, (a ++ " " ++ op ++ " ").toList.length⟩]

/-- Blanks keep the scans of the three words apart. -/
theorem Token.ofText_operation (hops : ∀ o ∈ ops, Symbolic o) (hop : op ∈ ops) {limits : Limits}
    {a b : String} (ha : Digits Char.isDigit a.toList) (hb : Digits Char.isDigit b.toList)
    (hshort : ((operationText a op b).toList.length : Int) ≤ limits.expressionLength) :
    Token.ofText (.ofList ops) limits (operationText a op b) = .ok (operationTokens a op b) := by
  have hunbroken := unbroken_of_symbolic hops
  have hblank : ∀ c ∈ " ".toList, isWhitespace c = true := by simp [isWhitespace]
  have hleft := Scan.ofText_of_piece (ofText_of_digits hops ha)
  have hword := Scan.ofText_of_piece ((hops op hop).ofText hop)
  have hright := Scan.ofText_of_piece (ofText_of_digits hops hb)
  have hscan : Scan.ofText (.ofList ops) (operationText a op b) = ⟨operationTokens a op b, []⟩ := by
    rw [operationText, Scan.ofText_append hunbroken (by decide) hblank,
      Scan.ofText_append hunbroken (by decide) hblank, hleft, hword, hright]
    simp [operationTokens, Token.shift]
  rw [Token.ofText_of_short hshort, hscan]
  rfl

end Scanning

/-! ## Parsing -/

namespace Parser

/-- Two literals and an operator that goes on with the first: a tree of three nodes. -/
theorem parse_operation {p : Precedence} {l : Limits} {source : Option String} {a op b : Token}
    {level : Level} (ha : a.kind = .constant) (hop : op.kind = .operator) (hb : b.kind = .constant)
    (hlevel : p.continues Precedence.lowest op.text = .ok (some level))
    (hdepth : 2 ≤ l.nestingDepth) (hnodes : 3 ≤ l.nodes) :
    parse p l source [a, op, b]
      = (.ok (.binary op.text (.constant a.text a.position) (.constant b.text b.position)
          op.position), ⟨3, 0, 3⟩) := by
  let g := grammarFor p l source [a, op, b]
  have htakes : takes g (floor []) (some op) = .ok (some (op, level)) :=
    takes_of_continues hop hlevel
  have hrun : run g [a, op, b] (.want []) {}
      = .done (.binary op.text (.constant a.text a.position) (.constant b.text b.position)
          op.position) ⟨3, 0, 3⟩ :=
    calc run g [a, op, b] (.want []) {}
        = run g [op, b] (.have [] (.constant a.text a.position)) ⟨1, 1, 1⟩ :=
          run_constant ha (by show (_ : Int) ≤ l.nestingDepth; simp; omega)
            (by show (_ : Int) ≤ l.nodes; simp; omega)
      _ = run g [b] (.want [.right (.constant a.text a.position) op level]) ⟨2, 1, 1⟩ :=
          run_have_takes htakes
      _ = run g [] (.have [.right (.constant a.text a.position) op level]
            (.constant b.text b.position)) ⟨3, 2, 2⟩ :=
          run_constant hb (by show (_ : Int) ≤ l.nestingDepth; simp; omega)
            (by show (_ : Int) ≤ l.nodes; simp; omega)
      _ = run g [] (.have [] (.binary op.text (.constant a.text a.position)
            (.constant b.text b.position) op.position)) ⟨3, 1, 3⟩ :=
          run_have_right rfl (by show (_ : Int) ≤ l.nodes; simp; omega)
      _ = _ := settle_nil rfl
  show checkTrailing g [a, op, b] 0 (expression g [a, op, b] {}) = _
  rw [expression_of_done hrun]
  rfl

end Parser

/-! ## Evaluating -/

namespace Evaluation

/-- An operator between two literals is looked up, and its function is applied to their values. -/
theorem eval_operation {σ : Type} {h : Host σ} {s : σ} {op a b : String} {f : Function}
    {m n : Value} (hf : (h.scope s).operators.binary.find? op = some f)
    (ha : Literal.value a = .ok m) (hb : Literal.value b = .ok n) (i j k : Int) :
    eval h (.binary op (.constant a i) (.constant b j) k) s = applyOperator h op k f [m, n] s := by
  have hleft : eval h (.constant a i) s = .ok m s := by
    rw [eval, ha]
    rfl
  have hright : eval h (.constant b j) s = .ok n s := by
    rw [eval, hb]
    rfl
  have hget : (get : EStateM Failure σ σ) s = .ok s s := rfl
  rw [eval]
  refine (bind_of_eq_ok hget).trans ?_
  rw [hf]
  exact (bind_of_eq_ok hleft).trans (bind_of_eq_ok hright)

end Evaluation

/-- An engine that remembers things, but nothing yet. -/
structure Engine.Untouched (e : Engine) : Prop where
  caching : e.caching = true
  tokens : e.tokens.entries = []
  trees : e.trees.entries = []
  results : e.results.entries = []

namespace Session

/-- A quiet function that is applied on an engine at work is called once, and leaves the engine. -/
theorem applyOperator_quiet {f : Function} (hf : f.Quiet) (depth : Nat) (op : String) (k : Int)
    (args : List Value) (w : World) :
    Evaluation.applyOperator (host (invoke depth)) op k f args w
      = outcome ((f.apply args).mapError (Evaluation.operatorFailure op k w.engine.scope.source))
          { w with events := w.events ++ [.called ⟨f, args⟩] } := by
  have hcall : (host (invoke depth)).call f args w
      = outcome (f.apply args) { w with events := w.events ++ [.called ⟨f, args⟩] } :=
    invoke_quiet hf depth args { w with events := w.events ++ [.called ⟨f, args⟩] }
  unfold Evaluation.applyOperator
  rw [hcall]
  cases f.apply args with
  | ok v => rfl
  | error e => rfl

/-! ## Solving -/

variable {w : World} {text : String}

/-- A text that nothing is remembered of is worked on. -/
theorem consult_of_none {α ν : Type} {store : String → Engine → Option ν × Engine}
    {found : ν → Run α} {otherwise : Run α} {e : Engine} (h : store text w.engine = (none, e)) :
    consult store (.str text) found otherwise w = otherwise w := by
  have hkey : ¬ (!(Datum.str text).isKey) = true := Bool.false_ne_true
  unfold consult
  rw [if_neg hkey]
  dsimp only
  rw [h]

variable {ts : List Token} {expr : Expr} {cursor : Parser.Cursor}

theorem scan_of_ofText (hcaching : w.engine.caching = true)
    (hts : Token.ofText w.engine.trie w.engine.limits text = .ok ts) :
    scan (.str text) w = .ok ts ⟨{ w.engine with tokens := w.engine.tokens.set text ts },
      w.events ++ [.scanned text.toList.length ts.length]⟩ := by
  have hget : (get : Run World) w = .ok w w := rfl
  unfold scan
  refine (bind_of_eq_ok hget).trans ?_
  dsimp only
  rw [hts]
  have hemit : emit (.scanned text.toList.length ts.length) w
      = .ok () { w with events := w.events ++ [.scanned text.toList.length ts.length] } := rfl
  refine (bind_of_eq_ok hemit).trans ?_
  rw [if_pos hcaching]
  rfl

theorem parse_of_eq_ok {source : Option String} (h : Parser.parse w.engine.tables.precedence
    w.engine.limits source ts = (.ok expr, cursor)) :
    parse ts source w = .ok expr ⟨w.engine, w.events ++ [.parsed ts.length cursor.nodes]⟩ := by
  have hget : (get : Run World) w = .ok w w := rfl
  unfold parse
  refine (bind_of_eq_ok hget).trans ?_
  rw [h]
  rfl

/-- A text that is new is scanned and parsed. -/
theorem tree_of_untouched (h : w.engine.Untouched)
    (hts : Token.ofText w.engine.trie w.engine.limits text = .ok ts)
    (hparse : Parser.parse w.engine.tables.precedence w.engine.limits (some text) ts
      = (.ok expr, cursor)) :
    tree (.str text) w = .ok expr
      ⟨{ w.engine with
          tokens := w.engine.tokens.set text ts
          trees := w.engine.trees.set text expr },
        w.events ++ [.scanned text.toList.length ts.length, .parsed ts.length cursor.nodes]⟩ := by
  have htokens : recallTokens text w.engine = (none, w.engine) := by
    simp [recallTokens, Cache.get?, Cache.find?, h.tokens]
  have htree : recallTree text w.engine = (none, w.engine) := by
    simp [recallTree, Cache.get?, Cache.find?, h.trees]
  have hget : ∀ w, (get : Run World) w = .ok w w := fun _ => rfl
  have htokenize : tokenize (.str text) w = .ok ts
      ⟨{ w.engine with tokens := w.engine.tokens.set text ts },
        w.events ++ [.scanned text.toList.length ts.length]⟩ := by
    unfold tokenize
    refine (bind_of_eq_ok (hget w)).trans ?_
    rw [if_pos h.caching, consult_of_none htokens]
    exact scan_of_ofText h.caching hts
  unfold tree
  refine (bind_of_eq_ok (hget w)).trans ?_
  rw [if_pos h.caching, consult_of_none htree]
  have hparsed : parse ts (some text) ⟨{ w.engine with tokens := w.engine.tokens.set text ts },
      w.events ++ [.scanned text.toList.length ts.length]⟩ = .ok expr _ := parse_of_eq_ok hparse
  rw [List.append_assoc] at hparsed
  unfold buildTree
  refine (bind_of_eq_ok htokenize).trans ((bind_of_eq_ok hparsed).trans ?_)
  refine (bind_of_eq_ok (hget _)).trans ?_
  rw [if_pos h.caching]
  rfl

/-- A tree without a result is evaluated. -/
theorem evaluate_of_no_results (hresults : w.engine.results.entries = [])
    (inner : Function → List Value → Run Value) (source : Option String) :
    evaluate inner expr source w = compute inner expr source w := by
  obtain h | ⟨-, v, engine, hrecalled, -⟩ := evaluate_cases inner expr source w
  · exact h
  · exact absurd hrecalled (by simp [recallResult, Cache.get?, Cache.find?, hresults])

/-- An evaluation comes to what its tree comes to. To remember it is no event. -/
theorem compute_of_outcome {inner : Function → List Value → Run Value} {source : Option String}
    {w' : World} {r : Except Failure Value}
    (h : Evaluation.eval (host inner) expr { w with engine := w.engine.beginEvaluation source }
      = outcome r w') :
    ∃ engine, compute inner expr source w = outcome r ⟨engine, w'.events⟩ := by
  cases r with
  | error e => exact ⟨w'.engine, compute_of_eq_error h⟩
  | ok v =>
    rw [← remembering_events w' expr v]
    exact ⟨(remembering w' expr v).engine, compute_of_eq_ok h⟩

/-- A new text that is an operator between two literals: its function is called with their values,
once, and nothing else is. -/
theorem solve_operation (h : w.engine.Untouched)
    (hts : Token.ofText w.engine.trie w.engine.limits text = .ok ts) {op a b : String}
    {i j k : Int} (hparse : Parser.parse w.engine.tables.precedence w.engine.limits (some text) ts
      = (.ok (.binary op (.constant a i) (.constant b j) k), cursor)) {f : Function}
    (hf : w.engine.tables.operatorFunctions.binary.find? op = some f) (hquiet : f.Quiet)
    {m n : Value} (ha : Literal.value a = .ok m) (hb : Literal.value b = .ok n) (depth : Nat) :
    ∃ engine, solve (invoke depth) (.str text) w
      = outcome ((f.apply [m, n]).mapError (Evaluation.operatorFailure op k (some text)))
          ⟨engine, w.events ++ [.scanned text.toList.length ts.length,
            .parsed ts.length cursor.nodes, .called ⟨f, [m, n]⟩]⟩ := by
  obtain ⟨built, hbuilt⟩ : ∃ built : World, built = ⟨{ w.engine with
      tokens := w.engine.tokens.set text ts
      trees := w.engine.trees.set text (.binary op (.constant a i) (.constant b j) k) },
    w.events ++ [.scanned text.toList.length ts.length, .parsed ts.length cursor.nodes]⟩ :=
    ⟨_, rfl⟩
  have htree := tree_of_untouched h hts hparse
  rw [← hbuilt] at htree
  have hresults : built.engine.results.entries = [] := by
    rw [hbuilt]
    exact h.results
  have hlookup : ((host (invoke depth)).scope { built with
      engine := built.engine.beginEvaluation (some text) }).operators.binary.find? op = some f := by
    rw [hbuilt]
    exact hf
  have heval := (Evaluation.eval_operation hlookup ha hb i j k).trans
    (applyOperator_quiet hquiet depth op k [m, n] _)
  have hevents : built.events ++ [.called ⟨f, [m, n]⟩] = w.events ++
      [.scanned text.toList.length ts.length, .parsed ts.length cursor.nodes,
        .called ⟨f, [m, n]⟩] := by
    rw [hbuilt, List.append_assoc]
    rfl
  obtain ⟨engine, hcompute⟩ := compute_of_outcome heval
  refine ⟨engine, ?_⟩
  rw [← hevents]
  exact (bind_of_eq_ok htree).trans ((evaluate_of_no_results hresults _ _).trans hcompute)

end Session

/-! ## Adding operators -/

/-- A level that is positive, or an operator that groups to the right. -/
theorem Precedence.continues_withLevels (p : Precedence) {op : String} {n : Int} {isRight : Bool}
    (h : 0 < n ∨ isRight = true) :
    (Session.withLevels p op (some (.int n)) none isRight).continues lowest op
      = .ok (some (.int n)) := by
  have hbinary : (Session.withLevels p op (some (.int n)) none isRight).binaryLevel op
      = some (.int n) := by
    show levelIn (p.binary.insert op (.int n)) op = _
    rw [levelIn, Table.find?_insert, if_pos rfl]
  have hright : isRight = true →
      (Session.withLevels p op (some (.int n)) none isRight).isRightAssociative op = true := by
    rintro rfl
    show (_ ++ [Datum.str op]).any (Datum.same (.str op)) = true
    have hself : Datum.same (.str op) (.str op) = true := beq_self_eq_true op
    rw [List.any_append, List.any_cons, hself, Bool.true_or, Bool.or_true]
  refine (continues_int hbinary).trans ?_
  rw [if_neg]
  rintro ⟨hle, hleft⟩
  rcases h with h | h
  · omega
  · rw [hright h] at hleft
    exact absurd hleft (by simp)

namespace Engine

variable {e : Engine} {op : String} {f : Function} {p : Int} {isRight : Bool}

/-- A function that can be called is added as an operator between operands: all stages know it, and
nothing is remembered any more. -/
theorem step_addOperator_binary (hfunctions : e.tables.operatorFunctions.Callable)
    (hop : op ≠ "") (hf : f.isCallable = true) (p : Int) (isRight : Bool) :
    ∃ report e', e.step (.addOperator (.str op) (some f) (.int p) none .none isRight)
        = (report, e')
      ∧ report.result = .ok .nothing ∧ e'.limits = e.limits
      ∧ (e.caching = true → e'.Untouched)
      ∧ e'.trie = .ofList (Session.withOperator e.tables.operators op)
      ∧ e'.tables.precedence
        = Session.withLevels e.tables.precedence op (some (.int p)) none isRight
      ∧ e'.tables.operatorFunctions.binary.find? op = some f := by
  have haccept : Session.accept (.str op) (some f) (.int p) none .none = .ok op := by
    show (if op = "" then _ else _) = _
    exact if_neg hop
  obtain ⟨o, ho⟩ : ∃ o, e.tables.operatorFunctions.extend op (some f) none = .ok o :=
    hfunctions.extend_eq_ok_iff.2 ⟨by simp, by simpa using hf⟩
  obtain ⟨events, -, hrun⟩ := Session.addOperator_added haccept isRight (w := ⟨e, []⟩) ho
  refine ⟨_, _, step_of_ok (bind_of_eq_ok hrun), rfl, rfl,
    fun hcaching => ⟨hcaching, rfl, rfl, rfl⟩, rfl, rfl, ?_⟩
  show o.binary.find? op = some f
  rw [OperatorFunctions.of_ofTables ho]
  show (e.tables.operatorFunctions.binary.insert op f).find? op = some f
  rw [Table.find?_insert, if_pos rfl]

theorem symbolic_withOperator (hop : Symbolic op) :
    ∀ o ∈ Session.withOperator defaultOperators op, Symbolic o := by
  intro o ho
  by_cases heq : op = o
  · rw [← heq]
    exact hop
  · exact symbolic_default o ((Session.mem_withOperator heq).1 ho)

theorem mem_withOperator_self (ops : List String) (op : String) :
    op ∈ Session.withOperator ops op := by
  unfold Session.withOperator
  split
  · assumption
  · exact List.mem_append_right _ (List.mem_singleton_self op)

/-- The standard engine with one more operator between operands. -/
structure Offers (e : Engine) (op : String) (f : Function) (p : Int) (isRight : Bool) : Prop where
  limits : e.limits = {}
  untouched : e.Untouched
  trie : e.trie = .ofList (Session.withOperator defaultOperators op)
  precedence : e.tables.precedence = Session.withLevels .default op (some (.int p)) none isRight
  function : e.tables.operatorFunctions.binary.find? op = some f

/-- The first text that it is given, if that is the operator between two literals. -/
theorem Offers.step_solve (h : e.Offers op f p isRight) (hop : Symbolic op)
    (hlevel : 0 < p ∨ isRight = true) (hf : f.Quiet) {a b : String}
    (ha : Digits Char.isDigit a.toList) (hb : Digits Char.isDigit b.toList)
    (hshort : (operationText a op b).toList.length ≤ 4096) :
    (e.step (.solve (.str (operationText a op b)))).1
      = ⟨((f.apply [.int (Reading.natOf 10 a.toList), .int (Reading.natOf 10 b.toList)]).mapError
            (Evaluation.operatorFailure op (a ++ " ").toList.length
              (some (operationText a op b)))).map .value,
          [.scanned (operationText a op b).toList.length 3, .parsed 3 3, .called
            ⟨f, [.int (Reading.natOf 10 a.toList), .int (Reading.natOf 10 b.toList)]⟩]⟩ := by
  have hwithin : ((operationText a op b).toList.length : Int) ≤ e.limits.expressionLength := by
    rw [h.limits]
    show ((operationText a op b).toList.length : Int) ≤ 4096
    omega
  have hts : Token.ofText e.trie e.limits (operationText a op b)
      = .ok (operationTokens a op b) := by
    rw [h.trie]
    exact Token.ofText_operation (symbolic_withOperator hop) (mem_withOperator_self _ op) ha hb
      hwithin
  have hcontinues : e.tables.precedence.continues Precedence.lowest op = .ok (some (.int p)) := by
    rw [h.precedence]
    exact Precedence.continues_withLevels .default hlevel
  have hparse : Parser.parse e.tables.precedence e.limits (some (operationText a op b))
      (operationTokens a op b)
      = (.ok (.binary op (.constant a 0) (.constant b (a ++ " " ++ op ++ " ").toList.length)
          (a ++ " ").toList.length), ⟨3, 0, 3⟩) :=
    Parser.parse_operation rfl rfl rfl hcontinues (by rw [h.limits]; decide)
      (by rw [h.limits]; decide)
  have hlength : a.toList.length + b.toList.length ≤ (operationText a op b).toList.length := by
    simp only [operationText, String.toList_append, List.length_append]
    omega
  have hvalue : ∀ t : String, Digits Char.isDigit t.toList → t.toList.length ≤ 4096 →
      Literal.value t = .ok (.int (Reading.natOf 10 t.toList)) := fun t ht hlen =>
    Literal.value_of_denotes (.whole ht) fun _ => Nat.le_trans hlen (by decide)
  obtain ⟨engine, hrun⟩ := Session.solve_operation (w := ⟨e, []⟩) h.untouched hts hparse h.function
    hf (hvalue a ha (by omega)) (hvalue b hb (by omega)) Session.maxNesting
  cases hr : (f.apply [.int (Reading.natOf 10 a.toList), .int (Reading.natOf 10 b.toList)]).mapError
      (Evaluation.operatorFailure op (a ++ " ").toList.length (some (operationText a op b))) with
  | ok v =>
    rw [hr] at hrun
    rw [step_of_ok (bind_of_eq_ok hrun)]
    rfl
  | error failure =>
    rw [hr] at hrun
    rw [step_of_error (bind_of_eq_error hrun)]
    rfl

variable {c : Change}

/-- The standard engine takes any operator with a function that can be called. -/
theorem offers_of_step (hc : create {} true (.int 256) .none .standard [] (.datum .none) [] = .ok c)
    (hop : op ≠ "") (hf : f.isCallable = true) (p : Int) (isRight : Bool) :
    ∃ report e, c.engine.step (.addOperator (.str op) (some f) (.int p) none .none isRight)
        = (report, e)
      ∧ report.result = .ok .nothing ∧ e.Offers op f p isRight := by
  have hengine := (Except.ok.inj hc).symm
  have hfunctions : c.engine.tables.operatorFunctions.Callable := by
    rw [hengine]
    exact OperatorFunctions.callable_default
  obtain ⟨report, e, hstep, hresult, hlimits, huntouched, htrie, hprecedence, hfunction⟩ :=
    step_addOperator_binary hfunctions hop hf p isRight
  rw [hengine] at hlimits huntouched htrie hprecedence
  exact ⟨report, e, hstep, hresult, hlimits, huntouched rfl, htrie, hprecedence, hfunction⟩

/-- A text that is too long is not even scanned. -/
theorem Offers.step_solve_of_long (h : e.Offers op f p isRight) (hsound : e.Sound) {text : String}
    (hlong : 4096 < text.toList.length) :
    (e.step (.solve (.str text))).1.result
      = .error (.error (.ofLimit {} .expressionLength text.toList.length)) := by
  have hts : e.freshTokens text
      = .error (.error (.ofLimit {} .expressionLength text.toList.length)) := by
    rw [freshTokens, h.limits]
    refine Token.ofText_eq_error_of_long ?_
    show (4096 : Int) < text.toList.length
    omega
  rw [hsound.solve_result, freshSolution, freshTree, hts]
  rfl

/-- An operator that is added to the standard engine can be used if it is symbolic, and has a
positive level or groups to the right. Any two decimal literals with the operator between them, in a
text that is not too long, are solved by one call of its function with the two numbers. What the
function answers is the answer, and its failure is the failure of the operator. -/
theorem solve_addedOperator
    (hc : create {} true (.int 256) .none .standard [] (.datum .none) [] = .ok c)
    (hop : Symbolic op) (hlevel : 0 < p ∨ isRight = true) (hcallable : f.isCallable = true)
    (hf : f.Quiet) :
    ∃ report e, c.engine.step (.addOperator (.str op) (some f) (.int p) none .none isRight)
        = (report, e)
      ∧ report.result = .ok .nothing
      ∧ ∀ a b : String, Digits Char.isDigit a.toList → Digits Char.isDigit b.toList →
        (a ++ " " ++ op ++ " " ++ b).toList.length ≤ 4096 →
        (e.step (.solve (.str (a ++ " " ++ op ++ " " ++ b)))).1
          = ⟨((f.apply [.int (Reading.natOf 10 a.toList),
                  .int (Reading.natOf 10 b.toList)]).mapError
                (Evaluation.operatorFailure op (a ++ " ").toList.length
                  (some (a ++ " " ++ op ++ " " ++ b)))).map .value,
              [.scanned (a ++ " " ++ op ++ " " ++ b).toList.length 3, .parsed 3 3, .called
                ⟨f, [.int (Reading.natOf 10 a.toList), .int (Reading.natOf 10 b.toList)]⟩]⟩ := by
  obtain ⟨report, e, hstep, hresult, hoffers⟩ := offers_of_step hc hop.ne_empty hcallable p isRight
  exact ⟨report, e, hstep, hresult, fun _ _ => hoffers.step_solve hop hlevel hf⟩

/-- A new word that goes on like an old one, at a negative level, but grouping to the right. -/
theorem solve_addedOperator_arrow :
    ∃ c report e, create {} true (.int 256) .none .standard [] (.datum .none) [] = .ok c
      ∧ Symbolic "->x"
      ∧ c.engine.step
          (.addOperator (.str "->x") (some (.record "arrow")) (.int (-1)) none .none true)
          = (report, e)
      ∧ report.result = .ok .nothing
      ∧ (e.step (.solve (.str "007 ->x 12"))).1
          = ⟨.ok (.value (.int 7)), [.scanned 10 3, .parsed 3 3,
              .called ⟨.record "arrow", [.int 7, .int 12]⟩]⟩ := by
  obtain ⟨c, hc⟩ : ∃ c, create {} true (.int 256) .none .standard [] (.datum .none) [] = .ok c :=
    ⟨_, rfl⟩
  have hop : Symbolic "->x" := by decide
  have hlevel : 0 < (-1 : Int) ∨ true = true := Or.inr rfl
  obtain ⟨report, e, hstep, hresult, hsolve⟩ :=
    solve_addedOperator (f := .record "arrow") hc hop hlevel rfl trivial
  have hleft : Digits Char.isDigit "007".toList := ⟨by decide, List.all_eq_true.1 (by decide)⟩
  have hright : Digits Char.isDigit "12".toList := ⟨by decide, List.all_eq_true.1 (by decide)⟩
  have hsolved := hsolve "007" "12" hleft hright (by decide)
  exact ⟨c, report, e, hc, hop, hstep, hresult, hsolved⟩

/-- A function that always answers 1. -/
def one : Function := .native fun _ => .ok (.int 1)

/-- Operators that are taken and never called: a word that begins like a name is scanned as one, the
parser does not go on with an operator of level 0 that groups to the left, and a text can be too
long. -/
theorem solve_addedOperator_uncalled :
    ∃ c, create {} true (.int 256) .none .standard [] (.datum .none) [] = .ok c
      ∧ (∃ report e, c.engine.step (.addOperator (.str "mod") (some one) (.int 2) none .none false)
            = (report, e)
          ∧ report.result = .ok .nothing
          ∧ (e.step (.solve (.str "7 mod 2"))).1.result = .error (.error
              { problem := .grammar (.expectedEnd "mod"), position := some 2,
                expression := some "7 mod 2" }))
      ∧ (∃ report e, c.engine.step (.addOperator (.str "@") (some one) (.int 0) none .none false)
            = (report, e)
          ∧ report.result = .ok .nothing
          ∧ (e.step (.solve (.str "1 @ 2"))).1.result = .error (.error
              { problem := .grammar (.expectedEnd "@"), position := some 2,
                expression := some "1 @ 2" }))
      ∧ ∃ report e, c.engine.step (.addOperator (.str "@") (some one) (.int 1) none .none false)
            = (report, e)
          ∧ report.result = .ok .nothing
          ∧ (e.step (.solve (.str (operationText (String.ofList (List.replicate 4093 '1')) "@"
                "2")))).1.result
            = .error (.error { problem := .limit "max_expression_length" 4096 4097,
                               position := none, expression := none }) := by
  obtain ⟨c, hc⟩ : ∃ c, create {} true (.int 256) .none .standard [] (.datum .none) [] = .ok c :=
    ⟨_, rfl⟩
  have hengine := (Except.ok.inj hc).symm
  refine ⟨c, hc, ⟨_, _, rfl, ?_, Report.result_of_error? ?_⟩,
    ⟨_, _, rfl, ?_, Report.result_of_error? ?_⟩, ?_⟩
  · rw [hengine]
    rfl
  · rw [hengine]
    decide +kernel
  · rw [hengine]
    rfl
  · rw [hengine]
    decide +kernel
  · have hop : "@" ≠ "" := by decide
    obtain ⟨report, e, hstep, hresult, hoffers⟩ :=
      offers_of_step (f := one) hc hop rfl 1 false
    have hsound : e.Sound := by
      have hstepped := (sound_create hc trivial (List.forall_mem_nil _)).step
        (s := .addOperator (.str "@") (some one) (.int 1) none .none false)
        ⟨fun g hg => by rw [← Option.some.inj hg]; trivial, by simp⟩
      rwa [hstep] at hstepped
    have hlength : (operationText (String.ofList (List.replicate 4093 '1')) "@" "2").toList.length
        = 4097 := by
      simp only [operationText, String.toList_append, List.length_append, String.toList_ofList,
        List.length_replicate]
      rfl
    have hlong := hoffers.step_solve_of_long hsound (by rw [hlength]; omega)
    rw [hlength] at hlong
    exact ⟨report, e, hstep, hresult, hlong⟩

end Engine

end Reckon
