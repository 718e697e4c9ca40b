import Reckon.Proofs.Expr.Failing
import Reckon.Proofs.Expr.Phrase
/-
  Which node fails. An evaluation that fails comes to a node of the tree after everything in front
  of it has its value (`Evaluation.Reaches`), and this node breaks: its literal cannot be read, its
  name or operator is unknown, or what it applies to the values below it fails
  (`Evaluation.Breaks`). Every failure is of this form, and the state that the node leaves is the
  state that the evaluation leaves (`Evaluation.eval_eq_error_iff_breaks`).

  The nodes of a parsed tree come from tokens of the text: each keeps the text and the position of
  one (`Phrase.exists_token`).
-/
namespace Reckon

/-! ## Nodes -/

namespace Expr

mutual
/-- The nodes of a tree: the tree itself, and what is below it. -/
def nodes : Expr → List Expr
  | constant t p => [constant t p]
  | var n p => [var n p]
  | unary o e p => unary o e p :: e.nodes
  | binary o l r p => binary o l r p :: (l.nodes ++ r.nodes)
  | call n args p => call n args p :: nodesAll args
  | unknown t p => [unknown t p]

def nodesAll : List Expr → List Expr
  | [] => []
  | e :: es => e.nodes ++ nodesAll es
end

/-- The token that a node comes from: its literal, its name or its operator. -/
def token? : Expr → Option Token
  | constant t p => some ⟨.constant, t, p⟩
  | var n p => some ⟨.identifier, n, p⟩
  | unary o _ p => some ⟨.operator, o, p⟩
  | binary o _ _ p => some ⟨.operator, o, p⟩
  | call n _ p => some ⟨.identifier, n, p⟩
  | unknown .. => none

theorem self_mem_nodes (e : Expr) : e ∈ e.nodes := by
  cases e with
  | constant | var | unary | binary | call | unknown =>
    rw [nodes]
    exact List.mem_cons_self ..

theorem nodes_subset_nodesAll {e : Expr} {es : List Expr} (he : e ∈ es) : e.nodes ⊆ nodesAll es := by
  induction es with
  | nil => exact absurd he List.not_mem_nil
  | cons x es ih =>
    rw [nodesAll]
    rcases List.mem_cons.1 he with rfl | he
    · exact List.subset_append_left ..
    · exact fun y hy => List.mem_append_right _ (ih he hy)

/-- The position of a node is that of its token. -/
theorem position_of_token {e : Expr} {t : Token} (h : e.token? = some t) :
    e.position = t.position := by
  cases e with
  | constant | var | unary | binary | call =>
    rw [← Option.some.inj h]
    rfl
  | unknown => exact absurd h (by simp [token?])

end Expr

theorem Token.eq_of_kind {t : Token} {kind : Token.Kind} (h : t.kind = kind) :
    (⟨kind, t.text, t.position⟩ : Token) = t := by
  rw [← h]

mutual
/-- Every node of the tree of a phrase comes from one of its tokens. -/
theorem Phrase.exists_token {p : Precedence} (f : Phrase) (hf : f.Grammatical p) :
    ∀ e ∈ f.expr.nodes, ∃ t ∈ f.tokens, e.token? = some t := by
  intro e he
  match f, hf with
  | .constant t, hk =>
    rw [Phrase.expr, Expr.nodes] at he
    rw [List.mem_singleton.1 he]
    exact ⟨t, List.mem_singleton_self t, congrArg some (Token.eq_of_kind hk)⟩
  | .name t, hk =>
    rw [Phrase.expr, Expr.nodes] at he
    rw [List.mem_singleton.1 he]
    exact ⟨t, List.mem_singleton_self t, congrArg some (Token.eq_of_kind hk)⟩
  | .unary op x, hf =>
    rw [Phrase.expr, Expr.nodes] at he
    rw [Phrase.tokens]
    rcases List.mem_cons.1 he with rfl | he
    · exact ⟨op, List.mem_cons_self .., congrArg some (Token.eq_of_kind hf.1)⟩
    · obtain ⟨t, ht, hnode⟩ := Phrase.exists_token x hf.2.2 e he
      exact ⟨t, List.mem_cons_of_mem _ ht, hnode⟩
  | .binary l op r, hf =>
    rw [Phrase.expr, Expr.nodes] at he
    rw [Phrase.tokens]
    rcases List.mem_cons.1 he with rfl | he
    · exact ⟨op, by simp, congrArg some (Token.eq_of_kind hf.1)⟩
    rcases List.mem_append.1 he with he | he
    · obtain ⟨t, ht, hnode⟩ := Phrase.exists_token l hf.2.2.2.1 e he
      exact ⟨t, List.mem_append_left _ ht, hnode⟩
    · obtain ⟨t, ht, hnode⟩ := Phrase.exists_token r hf.2.2.2.2 e he
      exact ⟨t, List.mem_append_right _ (List.mem_cons_of_mem _ ht), hnode⟩
  | .group a x b, hf =>
    rw [Phrase.tokens]
    obtain ⟨t, ht, hnode⟩ := Phrase.exists_token x hf.2.2.2 e he
    exact ⟨t, List.mem_cons_of_mem _ (List.mem_append_left _ ht), hnode⟩
  | .nullary n a b, hf =>
    rw [Phrase.expr, Expr.nodes, Expr.nodesAll] at he
    rw [List.mem_singleton.1 he]
    exact ⟨n, List.mem_cons_self .., congrArg some (Token.eq_of_kind hf.1)⟩
  | .call n a args, hf =>
    rw [Phrase.expr, Expr.nodes] at he
    rw [Phrase.tokens]
    rcases List.mem_cons.1 he with rfl | he
    · exact ⟨n, List.mem_cons_self .., congrArg some (Token.eq_of_kind hf.1)⟩
    · obtain ⟨t, ht, hnode⟩ := Arguments.exists_token args hf.2.2 e he
      exact ⟨t, List.mem_cons_of_mem _ (List.mem_cons_of_mem _ ht), hnode⟩

/-- So does every node of its arguments. -/
theorem Arguments.exists_token {p : Precedence} (args : Arguments) (hargs : args.Grammatical p) :
    ∀ e ∈ Expr.nodesAll args.exprs, ∃ t ∈ args.tokens, e.token? = some t := by
  intro e he
  match args, hargs with
  | .last x b, hargs =>
    rw [Arguments.exprs, Expr.nodesAll, Expr.nodesAll, List.append_nil] at he
    obtain ⟨t, ht, hnode⟩ := Phrase.exists_token x hargs.2.2 e he
    exact ⟨t, List.mem_append_left _ ht, hnode⟩
  | .more x comma others, hargs =>
    rw [Arguments.exprs, Expr.nodesAll] at he
    rw [Arguments.tokens]
    rcases List.mem_append.1 he with he | he
    · obtain ⟨t, ht, hnode⟩ := Phrase.exists_token x hargs.2.2.1 e he
      exact ⟨t, List.mem_append_left _ ht, hnode⟩
    · obtain ⟨t, ht, hnode⟩ := Arguments.exists_token others hargs.2.2.2 e he
      exact ⟨t, List.mem_append_right _ (List.mem_cons_of_mem _ ht), hnode⟩
end

/-! ## Nodes that fail -/

namespace Evaluation

variable {σ : Type} {h : Host σ}

/-- The evaluation of a tree in a state comes to a node in a state: what is evaluated before has
its value, and the operators and functions above are known. -/
inductive Reaches (h : Host σ) : Expr → σ → Expr → σ → Prop
  | here (x : Expr) (s : σ) : Reaches h x s x s
  | operand {op : String} {x y : Expr} {position : Int} {s s' : σ} {f : Function}
    (hfind : (h.scope s).operators.unary.find? op = some f) (hx : Reaches h x s y s') :
    Reaches h (.unary op x position) s y s'
  | leftOperand {op : String} {l r y : Expr} {position : Int} {s s' : σ} {f : Function}
    (hfind : (h.scope s).operators.binary.find? op = some f) (hl : Reaches h l s y s') :
    Reaches h (.binary op l r position) s y s'
  | rightOperand {op : String} {l r y : Expr} {position : Int} {s s₁ s' : σ} {f : Function} {a : Value}
    (hfind : (h.scope s).operators.binary.find? op = some f) (hl : eval h l s = .ok a s₁)
    (hr : Reaches h r s₁ y s') : Reaches h (.binary op l r position) s y s'
  | argument {name : String} {before after : List Expr} {x y : Expr} {position : Int}
    {s s₁ s' : σ} {f : Function} {vs : List Value}
    (hfind : (h.scope s).function? name = some f) (hbefore : evalAll h before s = .ok vs s₁)
    (hx : Reaches h x s₁ y s') : Reaches h (.call name (before ++ x :: after) position) s y s'

/-- A node fails by itself in a state, and leaves another one: it cannot be looked up or read, or
what it applies to the values below it fails. -/
inductive Breaks (h : Host σ) : Expr → σ → Failure → σ → Prop
  | constant {text : String} {position : Int} {s : σ} {f : Fault}
    (hvalue : Literal.value text = .error f) :
    Breaks h (.constant text position) s
      (nodeError h s (.invalidLiteral text) position (some f.kind)) s
  | var {name : String} {position : Int} {s : σ}
    (hfind : (h.scope s).bindings.find? name = none) :
    Breaks h (.var name position) s (nodeError h s (.undefinedVariable name) position) s
  | unaryUnknown {op : String} {x : Expr} {position : Int} {s : σ}
    (hfind : (h.scope s).operators.unary.find? op = none) :
    Breaks h (.unary op x position) s (nodeError h s (.unknownOperator op "unary") position) s
  | unary {op : String} {x : Expr} {position : Int} {s s₁ s₂ : σ} {f : Function} {v : Value}
    {e : Failure} (hfind : (h.scope s).operators.unary.find? op = some f)
    (hx : eval h x s = .ok v s₁) (hcall : h.call f [v] s₁ = .error e s₂) :
    Breaks h (.unary op x position) s (operatorFailure op position (h.scope s₂).source e) s₂
  | binaryUnknown {op : String} {l r : Expr} {position : Int} {s : σ}
    (hfind : (h.scope s).operators.binary.find? op = none) :
    Breaks h (.binary op l r position) s (nodeError h s (.unknownOperator op "binary") position) s
  | binary {op : String} {l r : Expr} {position : Int} {s s₁ s₂ s₃ : σ} {f : Function}
    {a b : Value} {e : Failure} (hfind : (h.scope s).operators.binary.find? op = some f)
    (hl : eval h l s = .ok a s₁) (hr : eval h r s₁ = .ok b s₂)
    (hcall : h.call f [a, b] s₂ = .error e s₃) :
    Breaks h (.binary op l r position) s (operatorFailure op position (h.scope s₃).source e) s₃
  | callUnknown {name : String} {args : List Expr} {position : Int} {s : σ}
    (hfind : (h.scope s).function? name = none) :
    Breaks h (.call name args position) s (nodeError h s (.undefinedFunction name) position) s
  | call {name : String} {args : List Expr} {position : Int} {s s₁ s₂ : σ} {f : Function}
    {vs : List Value} {e : Failure} (hfind : (h.scope s).function? name = some f)
    (hargs : evalAll h args s = .ok vs s₁) (hcall : h.call f vs s₁ = .error e s₂) :
    Breaks h (.call name args position) s
      (callFailure name (some position) (h.scope s₁).source e) s₂
  | unknown {type : String} {position : Int} {s : σ} :
    Breaks h (.unknown type position) s (nodeError h s (.unknownNode type) position) s

variable {x y : Expr} {s s₁ s' : σ} {e : Failure}

/-- What an evaluation comes to is a node of the tree. -/
theorem Reaches.mem_nodes (hr : Reaches h x s y s') : y ∈ x.nodes := by
  induction hr with
  | here x s => exact x.self_mem_nodes
  | operand _ _ ih =>
    rw [Expr.nodes]
    exact List.mem_cons_of_mem _ ih
  | leftOperand _ _ ih =>
    rw [Expr.nodes]
    exact List.mem_cons_of_mem _ (List.mem_append_left _ ih)
  | rightOperand _ _ _ ih =>
    rw [Expr.nodes]
    exact List.mem_cons_of_mem _ (List.mem_append_right _ ih)
  | argument _ _ _ ih =>
    rw [Expr.nodes]
    exact List.mem_cons_of_mem _ (Expr.nodes_subset_nodesAll (by simp) ih)

theorem evalAll_keeps_of_eval {P : σ → Prop} (hkeeps : ∀ x s, P s → P (left (eval h x s)))
    (xs : List Expr) (hs : P s) : P (left (evalAll h xs s)) := by
  induction xs generalizing s with
  | nil => exact hs
  | cons x xs ih =>
    rw [evalAll]
    have hx := hkeeps x s hs
    cases hrun : eval h x s with
    | error e s₁ =>
      rw [bind_of_eq_error hrun]
      exact of_eq_error hx hrun
    | ok v s₁ =>
      have hxs := ih (of_eq_ok hx hrun)
      rw [bind_of_eq_ok hrun]
      cases hrest : evalAll h xs s₁ with
      | error e s₂ =>
        rw [bind_of_eq_error hrest]
        exact of_eq_error hxs hrest
      | ok vs s₂ =>
        rw [bind_of_eq_ok hrest]
        exact of_eq_ok hxs hrest

/-- What evaluations keep is true of the state in which a node is evaluated. -/
theorem Reaches.keeps {P : σ → Prop} (hkeeps : ∀ x s, P s → P (left (eval h x s)))
    (hr : Reaches h x s y s') (hs : P s) : P s' := by
  induction hr with
  | here => exact hs
  | operand _ _ ih | leftOperand _ _ ih => exact ih hs
  | rightOperand _ hl _ ih => exact ih (of_eq_ok (hkeeps _ _ hs) hl)
  | argument _ hbefore _ ih => exact ih (of_eq_ok (evalAll_keeps_of_eval hkeeps _ hs) hbefore)

/-- The failure of a node that is reached is the failure of the evaluation. -/
theorem Reaches.eval_eq (hr : Reaches h x s y s₁) (hy : eval h y s₁ = .error e s') :
    eval h x s = .error e s' := by
  induction hr with
  | here => exact hy
  | operand hfind _ ih =>
    rw [eval_unary, hfind]
    exact bind_of_eq_error (ih hy)
  | leftOperand hfind _ ih =>
    rw [eval_binary, hfind]
    exact bind_of_eq_error (ih hy)
  | rightOperand hfind hl _ ih =>
    rw [eval_binary, hfind]
    exact (bind_of_eq_ok hl).trans (bind_of_eq_error (ih hy))
  | argument hfind hbefore _ ih =>
    rw [eval_call, hfind]
    exact bind_of_eq_error (evalAll_of_eq_error hbefore (ih hy))

/-- A node that breaks fails. -/
theorem Breaks.eval_eq (hb : Breaks h x s e s') : eval h x s = .error e s' := by
  cases hb with
  | constant hvalue =>
    rw [eval, hvalue]
    rfl
  | var hfind =>
    rw [eval_var, hfind]
    rfl
  | unaryUnknown hfind =>
    rw [eval_unary, hfind]
    rfl
  | unary hfind hx hcall =>
    rw [eval_unary, hfind]
    exact (bind_of_eq_ok hx).trans (applyOperator_of_eq_error hcall)
  | binaryUnknown hfind =>
    rw [eval_binary, hfind]
    rfl
  | binary hfind hl hr hcall =>
    rw [eval_binary, hfind, Option.elim_some, bind_of_eq_ok hl, bind_of_eq_ok hr]
    exact applyOperator_of_eq_error hcall
  | callUnknown hfind =>
    rw [eval_call, hfind]
    rfl
  | call hfind hargs hcall =>
    rw [eval_call, hfind]
    exact (bind_of_eq_ok hargs).trans (applyFunction_of_eq_error hcall)
  | unknown =>
    rw [eval]
    rfl

/-- In each of the ways to fail, a node is reached and breaks. -/
theorem Fails.exists_breaks {o : Option σ} (hf : Fails h x s e o) :
    ∃ y s₁ s', Reaches h x s y s₁ ∧ Breaks h y s₁ e s' := by
  induction hf with
  | constant hvalue => exact ⟨_, _, _, .here .., .constant hvalue⟩
  | var hfind => exact ⟨_, _, _, .here .., .var hfind⟩
  | unaryUnknown hfind => exact ⟨_, _, _, .here .., .unaryUnknown hfind⟩
  | unaryOperand hfind _ ih =>
    obtain ⟨y, s₁, s', hreach, hbreak⟩ := ih
    exact ⟨y, s₁, s', .operand hfind hreach, hbreak⟩
  | unary hfind hx hcall => exact ⟨_, _, _, .here .., .unary hfind hx hcall⟩
  | binaryUnknown hfind => exact ⟨_, _, _, .here .., .binaryUnknown hfind⟩
  | leftOperand hfind _ ih =>
    obtain ⟨y, s₁, s', hreach, hbreak⟩ := ih
    exact ⟨y, s₁, s', .leftOperand hfind hreach, hbreak⟩
  | rightOperand hfind hl _ ih =>
    obtain ⟨y, s₁, s', hreach, hbreak⟩ := ih
    exact ⟨y, s₁, s', .rightOperand hfind hl hreach, hbreak⟩
  | binary hfind hl hr hcall => exact ⟨_, _, _, .here .., .binary hfind hl hr hcall⟩
  | callUnknown hfind => exact ⟨_, _, _, .here .., .callUnknown hfind⟩
  | argument hfind hbefore _ ih =>
    obtain ⟨y, s₁, s', hreach, hbreak⟩ := ih
    exact ⟨y, s₁, s', .argument hfind hbefore hreach, hbreak⟩
  | call hfind hargs hcall => exact ⟨_, _, _, .here .., .call hfind hargs hcall⟩
  | unknown => exact ⟨_, _, _, .here .., .unknown⟩

/-- An evaluation fails exactly if it comes to a node that breaks, and it leaves what this node
leaves. -/
theorem eval_eq_error_iff_breaks :
    eval h x s = .error e s' ↔ ∃ y s₁, Reaches h x s y s₁ ∧ Breaks h y s₁ e s' := by
  constructor
  · intro hrun
    obtain ⟨o, hf⟩ := exists_fails x hrun
    obtain ⟨y, s₁, s₂, hreach, hbreak⟩ := hf.exists_breaks
    have hrun' := hreach.eval_eq hbreak.eval_eq
    obtain ⟨-, rfl⟩ := EStateM.Result.error.inj (hrun.symm.trans hrun')
    exact ⟨y, s₁, hreach, hbreak⟩
  · rintro ⟨y, s₁, hreach, hbreak⟩
    exact hreach.eval_eq hbreak.eval_eq

end Evaluation

end Reckon
