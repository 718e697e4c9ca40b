import Reckon.Proofs.Expr.Walking
/-
  Where a built-in function that rejects its arguments is said to do so. What goes wrong in a
  built-in function is a fault that an evaluation contains (`Builtin.contains_applyTo`), or the
  number of its arguments is wrong, which it says itself and without a place. A call gives its place
  to both (`Evaluation.callFailure_of_run`). An operator gives its place to a fault only
  (`Evaluation.operatorFailure_of_run`). So the error is at the node that applies the function, and
  shows the text, unless the node is an operator and gives the function a wrong number of operands,
  when the error has neither (`Expr.evaluate_rejected`).
-/
namespace Reckon

/-! ## What built-in functions come to -/

/-- A computation whose faults are all contained by an evaluation. -/
def Contains {α : Type} (r : Except Fault α) : Prop :=
  ∀ f, r = .error f → f.kind.isContained = true

section

variable {α β : Type}

theorem contains_ok (a : α) : Contains (.ok a) := fun f h => absurd h (by simp)

theorem contains_error {f : Fault} (h : f.kind.isContained = true) :
    Contains (.error f : Except Fault α) := by
  intro f' hf
  rw [← Except.error.inj hf]
  exact h

theorem Contains.bind {r : Except Fault α} {k : α → Except Fault β} (hr : Contains r)
    (hk : ∀ a, Contains (k a)) : Contains (r >>= k) := by
  cases r with
  | ok a => exact hk a
  | error f => exact contains_error (hr f rfl)

theorem Contains.map {r : Except Fault α} (hr : Contains r) (g : α → β) : Contains (r.map g) := by
  cases r with
  | ok a => exact contains_ok (g a)
  | error f => exact contains_error (hr f rfl)

end

theorem Number.contains_toFloat (n : Number) : Contains n.toFloat := by
  cases n with
  | float x => exact contains_ok x
  | int i =>
    unfold toFloat
    dsimp only
    cases Binary64.ofInt? i with
    | some x => exact contains_ok x
    | none => exact contains_error rfl

theorem Value.contains_toReal (v : Value) : Contains v.toReal := by
  unfold toReal
  cases v.number? with
  | some n => exact n.contains_toFloat
  | none => exact contains_error rfl

theorem Value.contains_wholePart (round : Bool → Nat → Int → Int) (x : Float) :
    Contains (wholePart round x) := by
  unfold wholePart
  cases Binary64.ofFloat x with
  | finite => exact contains_ok _
  | infinite | nan => exact contains_error rfl

namespace Builtin

theorem contains_checked {infinite : Fault} (h : infinite.kind.isContained = true) (x r : Float) :
    Contains (checked infinite x r) := by
  unfold checked
  cases isNaN r && !isNaN x with
  | true => exact contains_error rfl
  | false =>
    cases isInfinite r && !isInfinite x with
    | true => exact contains_error h
    | false => exact contains_ok _

theorem contains_real (f : Float → Float) {infinite : Fault} (h : infinite.kind.isContained = true)
    (v : Value) : Contains (real f infinite v) :=
  v.contains_toReal.bind fun _ => contains_checked h _ _

theorem contains_rounded (round : Bool → Nat → Int → Int) (v : Value) :
    Contains (rounded round v) := by
  unfold rounded
  cases v.number? with
  | none => exact contains_error rfl
  | some n =>
    cases n with
    | int i => exact contains_ok _
    | float x => exact (Value.contains_wholePart round x).map Value.int

theorem contains_logarithm (f : Float → Float) (v : Value) : Contains (logarithm f v) := by
  unfold logarithm
  cases v.number? with
  | none => exact contains_error rfl
  | some n =>
    cases n with
    | int i =>
      dsimp only
      by_cases hi : i ≤ 0
      · rw [if_pos hi]
        exact contains_error rfl
      · rw [if_neg hi]
        cases Binary64.ofInt? i with
        | some x => exact contains_ok _
        | none => exact contains_ok _
    | float x =>
      dsimp only
      have hchecked : Contains (checked .outsideDomain x (f x)) := contains_checked rfl x (f x)
      cases hc : checked .outsideDomain x (f x) with
      | ok v => exact contains_ok _
      | error fault => exact contains_error (hchecked fault hc)

theorem contains_logarithmTo (v base : Value) : Contains (logarithmTo v base) := by
  refine (contains_logarithm Float.log v).bind fun x => ?_
  refine (contains_logarithm Float.log base).bind fun b => ?_
  cases b == 0 with
  | true => exact contains_error rfl
  | false => exact contains_ok _

theorem contains_abs (v : Value) : Contains v.abs := by
  unfold Value.abs
  cases v.number? with
  | none => exact contains_error rfl
  | some n =>
    cases n with
    | int | float => exact contains_ok _

/-- What goes wrong in a function of one argument is contained. -/
theorem contains_applyTo (b : Builtin) (v : Value) : Contains (b.applyTo v) := by
  cases b with
  | sin | cos | tan | asin | acos | atan | sqrt | exp => exact contains_real _ rfl v
  | floor | ceil => exact contains_rounded _ v
  | abs => exact contains_abs v
  | log | log10 => exact (contains_logarithm _ v).map _
  | rad | deg => exact v.contains_toReal.map _

/-- The numbers of arguments that a function takes. -/
def Takes (b : Builtin) (n : Nat) : Prop := n = 1 ∨ b = log ∧ n = 2

instance (b : Builtin) (n : Nat) : Decidable (b.Takes n) := inferInstanceAs (Decidable (_ ∨ _))

/-- A function rejects a wrong number of arguments, and what else it comes to is contained. -/
theorem run_eq_error {b : Builtin} {args : List Value} {e : Failure}
    (h : b.run args = .error e) :
    (b.Takes args.length ∧ ∃ f, e = .fault f ∧ f.kind.isContained = true)
      ∨ (¬ b.Takes args.length ∧ e = b.wrongCount args.length) := by
  have hlift : ∀ {r : Except Fault Value}, Contains r → lift r = .error e →
      ∃ f, e = .fault f ∧ f.kind.isContained = true := by
    intro r hr he
    cases r with
    | ok v => exact absurd he (by simp [lift, Except.mapError])
    | error f => exact ⟨f, (Except.error.inj he).symm, hr f rfl⟩
  unfold run at h
  split at h
  case h_1 v => exact Or.inl ⟨Or.inl rfl, hlift (b.contains_applyTo v) h⟩
  case h_2 v base => exact Or.inl ⟨Or.inr ⟨rfl, rfl⟩, hlift (contains_logarithmTo v base) h⟩
  case h_3 hone htwo =>
    refine Or.inr ⟨?_, (Except.error.inj h).symm⟩
    rintro (hlength | ⟨hlog, hlength⟩)
    · obtain ⟨v, hv⟩ := List.length_eq_one_iff.1 hlength
      exact hone v hv
    · obtain ⟨v, base, hv⟩ := List.length_eq_two.1 hlength
      exact htwo v base hlog hv

end Builtin

/-! ## Where it is said -/

/-- Whether a node is an operator with its operands. -/
def Expr.isOperator : Expr → Bool
  | unary .. | binary .. => true
  | constant .. | var .. | call .. | unknown .. => false

namespace Evaluation

variable {σ : Type} {h : Host σ} {x y : Expr} {s s₁ s₂ s' : σ} {f : Function} {vs : List Value}
  {e : Failure}

theorem isApplication_of_callee {s : Scope} (hf : s.callee? x = some f) :
    x.isApplication = true := by
  cases x with
  | unary | binary | call => rfl
  | constant | var | unknown => exact absurd hf (by simp [Scope.callee?])

/-- A node that is reached and fails as it is applied is the failure of the evaluation. -/
theorem Reaches.eval_of_applyBy (hr : Reaches h x s y s₁)
    (hf : (h.scope s₁).callee? y = some f) (hargs : evalAll h y.children s₁ = .ok vs s₂)
    (happly : y.applyBy h f vs s₂ = .error e s') : eval h x s = .error e s' := by
  refine hr.eval_eq ?_
  rw [eval_application (isApplication_of_callee hf), hf]
  exact (bind_of_eq_ok hargs).trans happly

theorem applyBy_operator_eq_error (hy : y.isOperator = true)
    (hcall : h.call f vs s = .error e s') :
    ∃ op, y.applyBy h f vs s
      = .error (operatorFailure op y.position (h.scope s').source e) s' := by
  cases y with
  | unary op _ _ | binary op _ _ _ => exact ⟨op, applyOperator_of_eq_error hcall⟩
  | constant | var | call | unknown => exact absurd hy (by simp [Expr.isOperator])

theorem applyBy_call_eq_error (hy : y.isApplication = true) (hoperator : y.isOperator = false)
    (hcall : h.call f vs s = .error e s') :
    ∃ name, y.applyBy h f vs s
      = .error (callFailure name (some y.position) (h.scope s).source e) s' := by
  cases y with
  | call name _ _ => exact ⟨name, applyFunction_of_eq_error hcall⟩
  | unary | binary => exact absurd hoperator (by simp [Expr.isOperator])
  | constant | var | unknown => exact absurd hy (by simp [Expr.isApplication])

variable {b : Builtin} {args : List Value}

/-- An operator that applies a function gives its place to what goes wrong in there; but it does not
look at what the function says of its operands' number. -/
theorem operatorFailure_of_run (he : b.run args = .error e) (op : String) (position : Int)
    (source : Option String) :
    ∃ err : Error, operatorFailure op position source e = .error err
      ∧ err.problem.stage = .evaluation
      ∧ if b.Takes args.length then err.position = some position ∧ err.expression = source
        else err.position = none ∧ err.expression = none := by
  obtain ⟨htakes, f, rfl, hcontained⟩ | ⟨htakes, rfl⟩ := Builtin.run_eq_error he
  · refine ⟨_, if_pos hcontained, rfl, ?_⟩
    rw [if_pos htakes]
    exact ⟨rfl, rfl⟩
  · refine ⟨_, rfl, rfl, ?_⟩
    rw [if_neg htakes]
    exact ⟨rfl, rfl⟩

/-- A call gives its place to all that goes wrong. -/
theorem callFailure_of_run (he : b.run args = .error e) (name : String) (position : Int)
    (source : Option String) :
    ∃ err : Error, callFailure name (some position) source e = .error err
      ∧ err.problem.stage = .evaluation
      ∧ err.position = some position ∧ err.expression = source := by
  obtain ⟨-, f, rfl, hcontained⟩ | ⟨-, rfl⟩ := Builtin.run_eq_error he
  · exact ⟨_, if_pos hcontained, rfl, rfl, rfl⟩
  · exact ⟨_, rfl, rfl, rfl, rfl⟩

end Evaluation

open Evaluation

/-- A built-in function that rejects the values below a node which applies it makes the evaluation
fail with an error of the evaluation. The error is at the node and shows the text, unless the node
is an operator with a wrong number of operands for the function: then it has no place and no
text. -/
theorem Expr.evaluate_rejected {x y : Expr} {s : Scope} {b : Builtin} {args : List Value}
    {e : Failure} (hy : Applies Desk.host x ⟨s, []⟩ y ⟨b.function, args⟩)
    (he : b.run args = .error e) :
    ∃ err : Error, (x.evaluate s).result = .error (.error err) ∧ err.problem.stage = .evaluation
      ∧ if y.isOperator ∧ ¬ b.Takes args.length then err.position = none ∧ err.expression = none
        else err.position = some y.position ∧ err.expression = s.source := by
  obtain ⟨d₁, d₂, hreach, hcallee, hargs⟩ := hy
  have hd₁ : d₁.scope = s := hreach.keeps (P := fun d => d.scope = s)
    (fun y _ hd => eval_keeps (Desk.keeps_scope (s := s)) y hd) rfl
  have hd₂ : d₂.scope = s :=
    of_eq_ok (P := fun d => d.scope = s)
      (evalAll_keeps (Desk.keeps_scope (s := s)) y.children hd₁) hargs
  have hcall : Desk.host.call b.function args d₂
      = .error e { d₂ with calls := d₂.calls ++ [⟨b.function, args⟩] } := by
    have hrun : b.function.apply args = .error e := he
    show Desk.call b.function args d₂ = _
    rw [Desk.call_scope, hrun]
  have hresult : ∀ {f : Failure} {d : Desk},
      y.applyBy Desk.host b.function args d₂ = .error f d → (x.evaluate s).result = .error f := by
    intro f d happly
    rw [Expr.evaluate, hreach.eval_of_applyBy hcallee hargs happly]
    rfl
  have hsource : (Desk.host.scope d₂).source = s.source := congrArg Scope.source hd₂
  cases hoperator : y.isOperator with
  | true =>
    obtain ⟨op, happly⟩ := applyBy_operator_eq_error hoperator hcall
    obtain ⟨err, herr, hstage, hplace⟩ := operatorFailure_of_run he op y.position s.source
    refine ⟨err, (hresult happly).trans ?_, hstage, ?_⟩
    · rw [← herr, ← hsource]
      rfl
    · by_cases htakes : b.Takes args.length
      · rw [if_pos htakes] at hplace
        rwa [if_neg fun h => h.2 htakes]
      · rw [if_neg htakes] at hplace
        rwa [if_pos ⟨rfl, htakes⟩]
  | false =>
    obtain ⟨name, happly⟩ :=
      applyBy_call_eq_error (isApplication_of_callee hcallee) hoperator hcall
    obtain ⟨err, herr, hstage, hplace⟩ := callFailure_of_run he name y.position s.source
    refine ⟨err, (hresult happly).trans ?_, hstage, ?_⟩
    · rw [hsource, herr]
    · rwa [if_neg fun h => Bool.false_ne_true h.1]

/-- An operator for the absolute value of a text: its error is at the operator. -/
theorem Expr.evaluate_rejected_absolute :
    let y : Expr := .unary "-" (.var "t" 5) 4
    let x : Expr := .call "exp" [y] 0
    let s : Scope := { bindings := [("t", .str "s")],
                       operators := ⟨[("-", Builtin.abs.function)], []⟩, source := some "exp(-t)" }
    (Applies Desk.host x ⟨s, []⟩ y ⟨Builtin.abs.function, [.str "s"]⟩
        ∧ Builtin.abs.run [.str "s"] = .error (.fault (.unsupportedOperand "abs()" "str")))
      ∧ ∃ err : Error, (x.evaluate s).result = .error (.error err) ∧ err.problem.stage = .evaluation
        ∧ if y.isOperator ∧ ¬ Builtin.abs.Takes 1 then err.position = none ∧ err.expression = none
          else err.position = some 4 ∧ err.expression = some "exp(-t)" := by
  intro y x s
  have hreach : Reaches Desk.host (.call "exp" ([] ++ y :: []) 0) ⟨s, []⟩ y ⟨s, []⟩ :=
    .argument (f := Builtin.exp.function) rfl rfl (.here ..)
  have hy : Applies Desk.host x ⟨s, []⟩ y ⟨Builtin.abs.function, [.str "s"]⟩ :=
    ⟨⟨s, []⟩, ⟨s, []⟩, hreach, rfl, rfl⟩
  have he : Builtin.abs.run [.str "s"] = .error (.fault (.unsupportedOperand "abs()" "str")) := rfl
  exact ⟨⟨hy, he⟩, evaluate_rejected hy he⟩

/-- The sine as an operator between two operands: it rejects them, and the error does not say where,
although it is at the operator. -/
theorem Expr.evaluate_rejected_unplaced :
    let x : Expr := .binary "+" (.constant "1" 0) (.constant "2" 4) 2
    let s : Scope := { operators := ⟨[], [("+", Builtin.sin.function)]⟩, source := some "1 + 2" }
    Applies Desk.host x ⟨s, []⟩ x ⟨Builtin.sin.function, [.int 1, .int 2]⟩
      ∧ (∃ e, Builtin.sin.run [.int 1, .int 2] = .error e)
      ∧ ¬ ∃ err : Error, (x.evaluate s).result = .error (.error err)
        ∧ err.position = some x.position ∧ err.expression = s.source := by
  intro x s
  have hresult : (x.evaluate s).result
      = .error (.error { problem := .rejected "sin" "expected 1 argument(s), got 2" }) := rfl
  refine ⟨⟨⟨s, []⟩, ⟨s, []⟩, .here .., rfl, rfl⟩, ⟨_, rfl⟩, ?_⟩
  rintro ⟨err, herr, hposition, -⟩
  rw [hresult] at herr
  rw [← Failure.error.inj (Except.error.inj herr)] at hposition
  exact absurd hposition (by simp)

end Reckon
