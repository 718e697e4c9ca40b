import Reckon.Proofs.Reuse
/-
  What resets leave that are refused. A scanner checks all that it is given before it takes any of
  it, so a refused reset leaves it as it was. A reader has taken the tokens when its tables are
  refused, a calculator the expression and the variables when its operator functions are refused,
  and they keep them next to the tables of before (`refused_reset_read`). Nothing else is left, and
  the next reset that is accepted makes up for it. So refused resets can be left out of the uses of
  a tool, and every other use answers the same, as long as nothing is parsed or evaluated between a
  reset that is refused after something was taken and the next one that is accepted
  (`refused_resets`).

  The induction on the uses is made once, for any tool whose states are related while something is
  left in one of them (`Tool.Forgives`).
-/
namespace Reckon

/-! ## Tools in use -/

/-- A tool that is used again and again. -/
structure Tool (State Use Answer : Type) where
  answer : State → Use → Answer
  use : State → Use → State
  /-- The use is a reset, and it fails. -/
  refuses : State → Use → Bool
  /-- A reset of this kind has taken something by the time it is refused. -/
  leaves : Use → Bool
  /-- The use works with what a reset takes. -/
  reads : Use → Bool

namespace Tool

variable {State Use Answer : Type} (t : Tool State Use Answer)

/-- What uses leave one after the other. -/
def uses (s : State) (history : List Use) : State := history.foldl t.use s

/-- The answers to all uses but the refused resets. -/
def answers (s : State) : List Use → List Answer
  | [] => []
  | u :: history =>
    if t.refuses s u then answers (t.use s u) history
    else t.answer s u :: answers (t.use s u) history

/-- All uses but the refused resets. -/
def accepted (s : State) : List Use → List Use
  | [] => []
  | u :: history =>
    if t.refuses s u then accepted (t.use s u) history
    else u :: accepted (t.use s u) history

/-- Nothing that a refused reset has taken is read before a reset is accepted. To start with,
something may be left already. -/
def Tidy (left : Bool) (s : State) : List Use → Bool
  | [] => true
  | u :: history =>
    if t.refuses s u then Tidy (left || t.leaves u) (t.use s u) history
    else if t.reads u then !left && Tidy left (t.use s u) history
    else Tidy false (t.use s u) history

/-- States of a tool are alike when they differ at most in what refused resets have left in the
first. A reset that is accepted makes states the same that are alike. -/
structure Forgives (Alike : State → State → Prop) : Prop where
  refl : ∀ s, Alike s s
  refuses_eq : ∀ {s s' : State} (u : Use), Alike s s' → t.refuses s u = t.refuses s' u
  taken : ∀ {s s' : State} {u : Use}, Alike s s' → t.refuses s u = true → Alike (t.use s u) s'
  untaken : ∀ {s : State} {u : Use}, t.refuses s u = true → t.leaves u = false → t.use s u = s
  replaced : ∀ {s s' : State} {u : Use}, Alike s s' → t.refuses s u = false → t.reads u = false →
    t.answer s u = t.answer s' u ∧ t.use s u = t.use s' u

variable {t} {Alike : State → State → Prop} {s s' : State} {left : Bool}

/-- A use that is not refused, of states that are alike: whether it reads what was taken or
replaces it, both tools answer and go on in the same way, and nothing is left to be minded. -/
theorem Forgives.step (h : t.Forgives Alike) {u : Use} {history : List Use} (halike : Alike s s')
    (hleft : left = false → s = s') (hrefuses : t.refuses s u = false)
    (htidy : t.Tidy left s (u :: history) = true) :
    t.answer s u = t.answer s' u ∧ t.use s u = t.use s' u
      ∧ t.Tidy false (t.use s u) history = true := by
  rw [Tidy, hrefuses] at htidy
  cases hreads : t.reads u with
  | true =>
    rw [hreads] at htidy
    obtain ⟨hnone, hrest⟩ := Bool.and_eq_true_iff.1 htidy
    obtain rfl : left = false := by simpa using hnone
    rw [← hleft rfl]
    exact ⟨rfl, rfl, hrest⟩
  | false =>
    rw [hreads] at htidy
    obtain ⟨hanswer, huse⟩ := h.replaced halike hrefuses hreads
    exact ⟨hanswer, huse, htidy⟩

/-- A run, next to the run without the refused resets. The states are alike all the time, and they
are the same whenever nothing is left. -/
theorem Forgives.run (h : t.Forgives Alike) {history : List Use} (halike : Alike s s')
    (hleft : left = false → s = s') (htidy : t.Tidy left s history = true) :
    t.answers s history = t.answers s' (t.accepted s history)
      ∧ Alike (t.uses s history) (t.uses s' (t.accepted s history)) := by
  induction history generalizing s s' left with
  | nil => exact ⟨rfl, halike⟩
  | cons u history ih =>
    cases hrefuses : t.refuses s u with
    | true =>
      rw [Tidy, hrefuses] at htidy
      have hnone : (left || t.leaves u) = false → t.use s u = s' := by
        intro hnone
        obtain ⟨hbefore, hleaves⟩ := Bool.or_eq_false_iff.1 hnone
        rw [h.untaken hrefuses hleaves, hleft hbefore]
      have hrest := ih (h.taken halike hrefuses) hnone htidy
      simpa only [answers, accepted, uses, List.foldl_cons, hrefuses, if_true] using hrest
    | false =>
      obtain ⟨hanswer, huse, hrest⟩ := h.step halike hleft hrefuses htidy
      have hrefuses' : t.refuses s' u = false := by rw [← h.refuses_eq u halike, hrefuses]
      obtain ⟨hanswers, huses⟩ := ih (h.refl (t.use s u)) (fun _ => rfl) hrest
      simp only [answers, accepted, uses, List.foldl_cons, hrefuses, hrefuses',
        Bool.false_eq_true, if_false, ← hanswer, ← huse]
      exact ⟨congrArg _ hanswers, huses⟩

/-- Where nothing is ever left, nothing left is read. -/
theorem tidy_of_leaves_nothing (h : ∀ u, t.leaves u = false) (s : State) (history : List Use) :
    t.Tidy false s history = true := by
  induction history generalizing s with
  | nil => rfl
  | cons u history ih =>
    rw [Tidy, h u]
    simp [ih]

/-- What a use is to a tool, in whatever state: it reads what resets take, or it is a reset that is
refused, or a reset that is accepted. -/
inductive Kind (t : Tool State Use Answer) (Alike : State → State → Prop) (u : Use) : Prop
  | reading (hrefuses : ∀ s, t.refuses s u = false) (hreads : t.reads u = true)
  | refused (hrefuses : ∀ s, t.refuses s u = true)
    (htaken : ∀ s s', Alike s s' → Alike (t.use s u) s')
    (huntaken : t.leaves u = false → ∀ s, t.use s u = s)
  | accepted (hrefuses : ∀ s, t.refuses s u = false)
    (hreplaced : ∀ s s', Alike s s' → t.answer s u = t.answer s' u ∧ t.use s u = t.use s' u)

theorem Forgives.of_kinds (hrefl : ∀ s, Alike s s) (h : ∀ u, t.Kind Alike u) :
    t.Forgives Alike where
  refl := hrefl
  refuses_eq {s s'} u _ := by
    cases h u with
    | reading hrefuses => rw [hrefuses s, hrefuses s']
    | refused hrefuses => rw [hrefuses s, hrefuses s']
    | accepted hrefuses => rw [hrefuses s, hrefuses s']
  taken {s s' u} halike hrefuses := by
    cases h u with
    | refused _ htaken => exact htaken s s' halike
    | reading hfalse | accepted hfalse => exact absurd ((hfalse s).symm.trans hrefuses) (by simp)
  untaken {s u} hrefuses hleaves := by
    cases h u with
    | refused _ _ huntaken => exact huntaken hleaves s
    | reading hfalse | accepted hfalse => exact absurd ((hfalse s).symm.trans hrefuses) (by simp)
  replaced {s s' u} halike hrefuses hreads := by
    cases h u with
    | accepted _ hreplaced => exact hreplaced s s' halike
    | refused htrue => exact absurd ((htrue s).symm.trans hrefuses) (by simp)
    | reading _ htrue => exact absurd (htrue.symm.trans hreads) (by simp)

end Tool

/-! ## Scanners -/

namespace Scanner

/-- A scanner, with what it answers to settings, resets and runs. -/
def tool : Tool Scanner Use (Except Fault Unit ⊕ Except Failure (List Token)) where
  answer
    | s, .setOperators operators => .inl ((s.setOperators operators).map fun _ => ())
    | s, .reset source operators => .inl ((s.reset source operators).map fun _ => ())
    | s, .run => .inr s.run.1
    | s, .tokenize source operators => .inr (s.tokenize source operators).1
  use := use
  refuses
    | s, .reset source operators => !(s.reset source operators).isOk
    | _, _ => false
  leaves _ := false
  reads
    | .run | .tokenize .. => true
    | .setOperators _ | .reset .. => false

/-- A scanner keeps nothing of a reset that it refuses. -/
theorem use_of_refuses {s : Scanner} {u : Use} (h : tool.refuses s u = true) : s.use u = s := by
  cases u with
  | reset source operators =>
    show (s.reset source operators).toOption.getD s = s
    have hfails : (!(s.reset source operators).isOk) = true := h
    cases hreset : s.reset source operators with
    | error f => rfl
    | ok s' =>
      rw [hreset] at hfails
      exact absurd hfails (by simp [Except.isOk, Except.toBool])
  | setOperators | run | tokenize => exact absurd h (by simp [tool])

theorem forgives : tool.Forgives Eq where
  refl _ := rfl
  refuses_eq _ h := by rw [h]
  taken h hrefuses := by rw [← h]; exact use_of_refuses hrefuses
  untaken h _ := use_of_refuses h
  replaced h _ _ := by rw [h]; exact ⟨rfl, rfl⟩

end Scanner

/-! ## Readers -/

namespace Reader

/-- A reader, with what it answers to resets and parses. -/
def tool : Tool Reader Use (Except Fault Unit ⊕ Except Failure Expr) where
  answer
    | r, .reset tokens precedence source => .inl (r.reset tokens precedence source).1
    | r, .parse trailing => .inr (r.parse trailing).1
  use := use
  refuses
    | r, .reset tokens precedence source => !(r.reset tokens precedence source).1.isOk
    | _, .parse _ => false
  leaves
    | .reset tokens _ _ => tokens.isSome
    | .parse _ => false
  reads
    | .parse _ => true
    | .reset .. => false

/-- What a reset of a reader comes to. If it is refused, which does not depend on the reader, then
nothing has changed but the tokens. If it is accepted then only the limits are those of before. -/
theorem reset_cases (tokens : Option (List Token)) (precedence : Precedence.Source)
    (source : Option String) :
    (∃ f, ∀ r : Reader, r.reset tokens precedence source
        = (.error f, { r with tokens := tokens.or r.tokens }))
      ∨ ∃ p, ∀ r : Reader, r.reset tokens precedence source
        = (.ok (), ⟨r.limits, tokens, p, source, {}⟩) := by
  cases tokens with
  | none => exact Or.inl ⟨.noTokensGiven, fun _ => rfl⟩
  | some ts =>
    unfold reset
    cases Precedence.ofSource precedence with
    | error f => exact Or.inl ⟨f, fun _ => rfl⟩
    | ok p => exact Or.inr ⟨p, fun _ => rfl⟩

/-- Readers that differ in their tokens at most. -/
def Alike (r r' : Reader) : Prop := ∃ tokens, r = { r' with tokens }

theorem forgives : tool.Forgives Alike := by
  refine .of_kinds (fun r => ⟨r.tokens, rfl⟩) fun u => ?_
  cases u with
  | parse => exact .reading (fun _ => rfl) rfl
  | reset tokens precedence source =>
    obtain ⟨f, hall⟩ | ⟨p, hall⟩ := reset_cases tokens precedence source
    · refine .refused (fun r => ?_) (fun r r' h => ?_) (fun hleaves r => ?_)
      · show (!(r.reset tokens precedence source).1.isOk) = true
        rw [hall r]
        rfl
      · obtain ⟨tokens', rfl⟩ := h
        exact ⟨tokens.or tokens', congrArg Prod.snd (hall _)⟩
      · obtain rfl : tokens = none := by simpa [tool] using hleaves
        exact congrArg Prod.snd (hall r)
    · refine .accepted (fun r => ?_) (fun r r' h => ?_)
      · show (!(r.reset tokens precedence source).1.isOk) = false
        rw [hall r]
        rfl
      · obtain ⟨tokens', rfl⟩ := h
        have hsame := (hall { r' with tokens := tokens' }).trans (hall r').symm
        exact ⟨congrArg Sum.inl (congrArg Prod.fst hsame), congrArg Prod.snd hsame⟩

end Reader

/-! ## Calculators -/

namespace Calculator

/-- A calculator, with what it answers to resets and evaluations. -/
def tool : Tool Calculator Use (Except Fault Unit ⊕ Traced Value) where
  answer
    | c, .reset expr bindings operators functions source =>
      .inl (c.reset expr bindings operators functions source).1
    | c, .evaluate expr => .inr (c.evaluate expr)
  use := use
  refuses
    | c, .reset expr bindings operators functions source =>
      !(c.reset expr bindings operators functions source).1.isOk
    | _, .evaluate _ => false
  leaves
    | .reset .. => true
    | .evaluate _ => false
  reads
    | .evaluate _ => true
    | .reset .. => false

/-- What a reset of a calculator comes to. If it is refused, which does not depend on the
calculator, then nothing has changed but the expression and the variables. If it is accepted then
nothing is kept. -/
theorem reset_cases (expr : Option Expr) (bindings : Table Value) (operators : OperatorSource)
    (functions : Table Function) (source : Option String) :
    (∃ f, ∀ c : Calculator, c.reset expr bindings operators functions source
        = (.error f, { c with expr, scope := { c.scope with bindings } }))
      ∨ ∃ ops, ∀ c : Calculator, c.reset expr bindings operators functions source
        = (.ok (), ⟨expr, bindings, ops, functions, source⟩) := by
  unfold reset
  cases OperatorFunctions.ofSource operators with
  | error f => exact Or.inl ⟨f, fun _ => rfl⟩
  | ok ops => exact Or.inr ⟨ops, fun _ => rfl⟩

/-- Calculators that differ in their expression and their variables at most. -/
def Alike (c c' : Calculator) : Prop :=
  ∃ expr bindings, c = { c' with expr, scope := { c'.scope with bindings } }

theorem forgives : tool.Forgives Alike := by
  refine .of_kinds (fun c => ⟨c.expr, c.scope.bindings, rfl⟩) fun u => ?_
  cases u with
  | evaluate => exact .reading (fun _ => rfl) rfl
  | reset expr bindings operators functions source =>
    obtain ⟨f, hall⟩ | ⟨ops, hall⟩ := reset_cases expr bindings operators functions source
    · refine .refused (fun c => ?_) (fun c c' h => ?_)
        (fun hleaves => absurd hleaves (by simp [tool]))
      · show (!(c.reset expr bindings operators functions source).1.isOk) = true
        rw [hall c]
        rfl
      · obtain ⟨expr', bindings', rfl⟩ := h
        exact ⟨expr, bindings, congrArg Prod.snd (hall _)⟩
    · refine .accepted (fun c => ?_) (fun c c' _ => ?_)
      · show (!(c.reset expr bindings operators functions source).1.isOk) = false
        rw [hall c]
        rfl
      · have hsame := (hall c).trans (hall c').symm
        exact ⟨congrArg Sum.inl (congrArg Prod.fst hsame), congrArg Prod.snd hsame⟩

end Calculator

/-! ## Refused resets -/

/-- A scanner goes on after a refused reset as if it had not been made. A reader keeps the tokens
of one for which it refuses the tables, a calculator the expression and the variables, and nothing
else. They go on as if it had not been made when nothing that it left is parsed or evaluated before
a reset is accepted. -/
theorem refused_resets (s : Scanner) (scans : List Scanner.Use) (r : Reader)
    (parses : List Reader.Use) (c : Calculator) (evaluations : List Calculator.Use) :
    (Scanner.tool.answers s scans = Scanner.tool.answers s (Scanner.tool.accepted s scans)
        ∧ s.uses scans = s.uses (Scanner.tool.accepted s scans))
      ∧ ((∀ tokens precedence source f r',
          (r.uses parses).reset tokens precedence source = (.error f, r') →
            r' = { r.uses parses with tokens := tokens.or (r.uses parses).tokens })
        ∧ (Reader.tool.Tidy false r parses = true →
          Reader.tool.answers r parses = Reader.tool.answers r (Reader.tool.accepted r parses)
            ∧ ∃ tokens, r.uses parses
              = { r.uses (Reader.tool.accepted r parses) with tokens }))
      ∧ (∀ expr bindings operators functions source f c',
          (c.uses evaluations).reset expr bindings operators functions source = (.error f, c') →
            c' = { c.uses evaluations with
              expr, scope := { (c.uses evaluations).scope with bindings } })
        ∧ (Calculator.tool.Tidy false c evaluations = true →
          Calculator.tool.answers c evaluations
              = Calculator.tool.answers c (Calculator.tool.accepted c evaluations)
            ∧ ∃ expr bindings, c.uses evaluations
              = { c.uses (Calculator.tool.accepted c evaluations) with
                expr,
                scope := { (c.uses (Calculator.tool.accepted c evaluations)).scope with
                  bindings } }) := by
  refine ⟨?_, ⟨?_, fun htidy => ?_⟩, ?_, fun htidy => ?_⟩
  · exact Scanner.forgives.run rfl (fun _ => rfl)
      (Tool.tidy_of_leaves_nothing (fun _ => rfl) s scans)
  · intro tokens precedence source f r' hreset
    obtain ⟨g, hall⟩ | ⟨p, hall⟩ := Reader.reset_cases tokens precedence source
    · exact (congrArg Prod.snd (hreset.symm.trans (hall _)))
    · exact absurd (hreset.symm.trans (hall _)) (by simp)
  · exact Reader.forgives.run (Reader.forgives.refl r) (fun _ => rfl) htidy
  · intro expr bindings operators functions source f c' hreset
    obtain ⟨g, hall⟩ | ⟨ops, hall⟩ :=
      Calculator.reset_cases expr bindings operators functions source
    · exact (congrArg Prod.snd (hreset.symm.trans (hall _)))
    · exact absurd (hreset.symm.trans (hall _)) (by simp)
  · exact Calculator.forgives.run (Calculator.forgives.refl c) (fun _ => rfl) htidy

/-- The tokens of `1 + 2`. -/
def Reader.sumTokens : List Token :=
  [⟨.constant, "1", 0⟩, ⟨.operator, "+", 2⟩, ⟨.constant, "2", 4⟩]

/-- The tokens of `3`. -/
def Reader.threeTokens : List Token := [⟨.constant, "3", 0⟩]

/-- What is left of `3` is replaced before it is parsed, and resets without tokens leave nothing. -/
def Reader.mended : List Reader.Use :=
  [.reset (some threeTokens) (.datum (.int 5)) none, .reset (some sumTokens) .standard none,
    .reset none .standard none, .parse true]

/-- What is left of `x` is replaced before it is evaluated. -/
def Calculator.mended : List Calculator.Use :=
  [.reset (some (.var "x" 0)) [] (.datum (.int 5)) [] none,
    .reset (some (.constant "3" 0)) [] (.datum .none) [] none, .evaluate none]

theorem refused_resets_mended :
    (∃ s, Scanner.create .none .none {} = .ok s
        ∧ Scanner.tool.answers s Scanner.spoiling
          = Scanner.tool.answers s (Scanner.spoiling.eraseIdx 2))
      ∧ (∃ r, Reader.create none .standard none {} = .ok r
        ∧ Reader.tool.Tidy false r Reader.mended = true
        ∧ Reader.tool.accepted r Reader.mended
          = [.reset (some Reader.sumTokens) .standard none, .parse true]
        ∧ Reader.tool.answers r Reader.mended
          = [.inl (.ok ()), .inr (.ok (.binary "+" (.constant "1" 0) (.constant "2" 4) 2))]
        ∧ ∃ f r', (r.uses Reader.mended).reset (some Reader.threeTokens) (.datum (.int 5)) none
            = (.error f, r')
          ∧ r' = { r.uses Reader.mended with tokens := some Reader.threeTokens })
      ∧ ∃ c, Calculator.create none [] (.datum .none) [] none = .ok c
        ∧ Calculator.tool.Tidy false c Calculator.mended = true
        ∧ Calculator.tool.answers c Calculator.mended
          = Calculator.tool.answers c [.reset (some (.constant "3" 0)) [] (.datum .none) [] none,
              .evaluate none]
        ∧ ∃ f c', (c.uses Calculator.mended).reset (some (.var "x" 0)) [] (.datum (.int 5)) [] none
            = (.error f, c')
          ∧ c' = { c.uses Calculator.mended with
            expr := some (.var "x" 0),
            scope := { (c.uses Calculator.mended).scope with bindings := [] } } := by
  obtain ⟨s, hs⟩ : ∃ s, Scanner.create .none .none {} = .ok s := ⟨_, rfl⟩
  obtain ⟨r, hr⟩ : ∃ r, Reader.create none .standard none {} = .ok r := ⟨_, rfl⟩
  obtain ⟨c, hc⟩ : ∃ c, Calculator.create none [] (.datum .none) [] none = .ok c := ⟨_, rfl⟩
  obtain rfl := Except.ok.inj hs
  obtain rfl := Except.ok.inj hr
  obtain rfl := Except.ok.inj hc
  obtain ⟨⟨hscanned, -⟩, ⟨hread, hparsed⟩, hset, hevaluated⟩ :=
    refused_resets _ Scanner.spoiling _ Reader.mended _ Calculator.mended
  refine ⟨⟨_, hs, hscanned⟩,
    ⟨_, hr, rfl, rfl, (hparsed rfl).1, .levelsNotMapping "int", _, rfl, ?_⟩,
    ⟨_, hc, rfl, (hevaluated rfl).1, .operatorFunctionsNotMapping "int", _, rfl, ?_⟩⟩
  · exact hread (some Reader.threeTokens) (.datum (.int 5)) none _ _ rfl
  · exact hset (some (.var "x" 0)) [] (.datum (.int 5)) [] none _ _ rfl

/-- A reader that refuses the tables for the tokens of `3` parses them with the tables of before,
and the tokens of `1 + 2` are lost. A calculator that refuses the operator functions for `x`
evaluates it in the scope of before. -/
theorem refused_reset_read :
    (∃ r r', Reader.create (some Reader.sumTokens) .standard none {} = .ok r
        ∧ r.reset (some Reader.threeTokens) (.datum (.int 5)) none
          = (.error (.levelsNotMapping "int"), r')
        ∧ (r.parse true).1 = .ok (.binary "+" (.constant "1" 0) (.constant "2" 4) 2)
        ∧ (r'.parse true).1 = .ok (.constant "3" 0))
      ∧ ∃ c c', Calculator.create (some (.binary "+" (.constant "1" 0) (.constant "2" 4) 2)) []
            (.datum .none) [] none = .ok c
        ∧ c.reset (some (.var "x" 0)) [] (.datum (.int 5)) [] none
          = (.error (.operatorFunctionsNotMapping "int"), c')
        ∧ (c.evaluate none).result = .ok (.int 3)
        ∧ (c'.evaluate none).result = .error (.error
            { problem := .undefinedVariable "x", position := some 0, expression := none }) :=
  ⟨⟨_, _, rfl, rfl, rfl, rfl⟩, ⟨_, _, rfl, rfl, rfl, rfl⟩⟩

end Reckon
