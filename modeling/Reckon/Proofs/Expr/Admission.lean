import Reckon.Proofs.Expr.Charges
/-
  What the limits of the parser mean. Where the charges of a phrase are within the limits it is
  read (`run_phrase`), and where it is read none of them was too large (`fits_of_run`). So what is
  accepted under some limits is accepted under others exactly when its charges are within them, and
  else one of the limits that it exceeds is reported (`parse_iff_admitted`).
-/
namespace Reckon

/-- The charges of a phrase are within the limits: its nodes, the arguments of each call, and its
nesting. -/
structure Phrase.Admitted (l : Limits) (f : Phrase) : Prop where
  nodes : (f.expr.size : Int) ≤ l.nodes
  arguments : ∀ n ∈ f.expr.arities, (n : Int) ≤ l.arguments
  nesting : (f.cost : Int) ≤ l.nestingDepth

/-- A phrase is too large for one of the limits. -/
def Phrase.Overruns (l : Limits) (f : Phrase) : Limit → Prop
  | .expressionLength => False
  | .nestingDepth => l.nestingDepth < f.cost
  | .nodes => l.nodes < f.expr.size
  | .arguments => ∃ n ∈ f.arities, l.arguments < n

namespace Parser

/-! ## What is read has room -/

section

variable {g : Grammar} {t : Token} {ts rest : List Token} {mode : Mode} {stack : List Frame}
  {c : Cursor}

theorem isLimit_run_of_step (h : (step g t ts.head? mode c).IsLimit) :
    (run g (t :: ts) mode c).IsLimit := by
  rw [run]
  cases hs : step g t ts.head? mode c with
  | go mode' c' => rw [hs] at h; exact h.elim
  | done e c' => rw [hs] at h; exact h.elim
  | fail f c' => rw [hs] at h; exact h
  | refused f c' => rw [hs] at h; exact h

theorem isLimit_run_of_settle {e : Expr} (h : (settle g ts.head? stack e c).IsLimit) :
    (run g ts (.have stack e) c).IsLimit := by
  cases ts with
  | nil => exact h
  | cons t ts => exact isLimit_run_of_step h

theorem isLimit_make {k : Cursor → Step} (h : g.limits.nodes < c.nodes + 1) :
    (make g c k).IsLimit := by
  have hgt : (c.count.nodes : Int) > Limit.bound g.limits .nodes := h
  unfold make Limits.check
  rw [if_pos hgt]
  rfl

/-- An operand is read only where one more frame may be entered. -/
theorem depth_le_of_run_want (h : ¬ (run g (t :: rest) (.want stack) c).IsLimit) :
    (c.depth + 1 : Int) ≤ g.limits.nestingDepth := by
  refine Int.not_lt.1 fun hd => h (isLimit_run_of_step ?_)
  have hm : mayEnter g c = false := decide_eq_false (Int.not_le.2 hd)
  rw [step, startOperand, hm]
  exact isLimit_tooDeep _

/-- A node is made only where there may be one more. -/
theorem nodes_le_of_step {k : Cursor → Step} (h : ¬ (run g (t :: rest) mode c).IsLimit)
    {c' : Cursor} (hs : step g t rest.head? mode c = make g c' k) :
    (c'.nodes + 1 : Int) ≤ g.limits.nodes := by
  refine Int.not_lt.1 fun hn => h (isLimit_run_of_step ?_)
  rw [hs]
  exact isLimit_make hn

theorem nodes_le_of_settle {e : Expr} {k : Cursor → Step}
    (h : ¬ (run g ts (.have stack e) c).IsLimit) {c' : Cursor}
    (hs : settle g ts.head? stack e c = make g c' k) : (c'.nodes + 1 : Int) ≤ g.limits.nodes := by
  refine Int.not_lt.1 fun hn => h (isLimit_run_of_settle ?_)
  rw [hs]
  exact isLimit_make hn

/-- An argument is kept only where the call may have one more. -/
theorem arguments_le_of_run {n : Token} {before : List Expr} {e : Expr}
    (h : ¬ (run g ts (.have (.arg n before :: stack) e) c).IsLimit)
    (ht : takes g Precedence.lowest ts.head? = .ok none) :
    (before.length + 1 : Int) ≤ g.limits.arguments := by
  refine Int.not_lt.1 fun ha => h (isLimit_run_of_settle ?_)
  have hgt : Limit.bound g.limits .arguments < ((before ++ [e]).length : Int) := by
    rw [List.length_append, List.length_singleton]
    exact ha
  rw [settle_arg_of_error ht (check_of_lt hgt)]
  rfl

end

variable {g : Grammar}

mutual
/-- A phrase that is read without a report of a limit has room within the limits. -/
theorem fits_of_run (f : Phrase) (hf : f.Grammatical g.precedence) {stack : List Frame}
    {rest : List Token} {c : Cursor} (hs : f.OpenAt g.precedence (floor stack))
    (hr : ∀ level ∈ f.rightSpine g.precedence, takes g level rest.head? = .ok none)
    (ho : rest.head?.any Token.isOpening = false)
    (h : ¬ (run g (f.tokens ++ rest) (.want stack) c).IsLimit) : Fits g.limits c f := by
  match f, hf with
  | .constant t, hk =>
    have hd := depth_le_of_run_want h
    have hn := nodes_le_of_step h (step_constant hk hd)
    exact ⟨by simp only [Phrase.nesting]; omega, hn, List.forall_mem_nil _⟩
  | .name t, hk =>
    have hd := depth_le_of_run_want h
    have hn := nodes_le_of_step h (step_name hk ho hd)
    exact ⟨by simp only [Phrase.nesting]; omega, hn, List.forall_mem_nil _⟩
  | .unary op e, ⟨hk, ⟨level, hl, hopen⟩, he⟩ =>
    rw [Phrase.rightSpine_unary hl, List.forall_mem_cons] at hr
    have hd := depth_le_of_run_want h
    have hopen : e.OpenAt g.precedence (floor (.unary op level :: stack)) := hopen
    rw [Phrase.tokens, List.cons_append, run_unary hk hl hd] at h
    have hfit : Fits g.limits c.enter.advance e := fits_of_run e he hopen hr.2 ho h
    rw [run_phrase e he hopen hr.2 ho hfit] at h
    have hn := nodes_le_of_settle h (settle_unary hr.1)
    have hnesting := hfit.nesting
    simp only [Cursor.past, Cursor.enter, Cursor.advance, Cursor.leave] at hn hnesting
    refine ⟨?_, ?_, hfit.arities⟩
    · simp only [Phrase.nesting]; omega
    · simp only [Phrase.expr, Expr.size]; omega
  | .binary l op r, ⟨hk, ⟨level, hl, hopen⟩, hleave, hgl, hgr⟩ =>
    rw [Phrase.rightSpine_binary hl, List.forall_mem_cons] at hr
    obtain ⟨level', hl', hcont⟩ := (hs op.text (List.mem_cons_self ..)).exists_level
    have heq : level' = level := Option.some.inj (hl'.symm.trans hl)
    subst heq
    have hop : op.isOpening = false := Token.isOpening_eq_false (by rw [hk]; decide)
    have hopen : r.OpenAt g.precedence (floor (.right l.expr op level' :: stack)) := hopen
    have hsl : l.OpenAt g.precedence (floor stack) := fun q hq => hs q (List.mem_cons_of_mem _ hq)
    have hrl : ∀ x ∈ l.rightSpine g.precedence,
        takes g x (op :: (r.tokens ++ rest)).head? = .ok none :=
      fun x hx => takes_of_leaves (hleave x hx)
    rw [Phrase.tokens, List.append_assoc, List.cons_append] at h
    have hfl : Fits g.limits c l := fits_of_run l hgl hsl hrl hop h
    rw [run_phrase l hgl hsl hrl hop hfl, run_have_takes (takes_of_continues hk hcont)] at h
    have hfr : Fits g.limits (c.past l).advance r := fits_of_run r hgr hopen hr.2 ho h
    rw [run_phrase r hgr hopen hr.2 ho hfr] at h
    have hn := nodes_le_of_settle h (settle_right hr.1)
    have hnl := hfl.nesting
    have hnr := hfr.nesting
    simp only [Cursor.past, Cursor.advance, Cursor.leave] at hn hnr
    refine ⟨?_, ?_, fun n hm => ?_⟩
    · simp only [Phrase.nesting]; omega
    · simp only [Phrase.expr, Expr.size]; omega
    · rcases List.mem_append.1 hm with hm | hm
      · exact hfl.arities n hm
      · exact hfr.arities n hm
  | .group a e b, ⟨hopening, hclosing, hopen, he⟩ =>
    have hkb : b.kind ≠ .operator := by rw [Token.kind_of_isClosing hclosing]; decide
    have hb : b.isOpening = false := Token.isOpening_of_isClosing hclosing
    have hopen : e.OpenAt g.precedence (floor (.group :: stack)) := hopen
    have hd := depth_le_of_run_want h
    rw [Phrase.tokens, List.cons_append, List.append_assoc, List.singleton_append,
      run_group hopening hd] at h
    have hfit : Fits g.limits c.enter.advance e :=
      fits_of_run e he hopen (takes_head?_of_kind_ne hkb _) hb h
    have hnesting := hfit.nesting
    simp only [Cursor.enter, Cursor.advance] at hnesting
    exact ⟨by simp only [Phrase.nesting]; omega, hfit.nodes, hfit.arities⟩
  | .nullary n a b, ⟨hk, hopening, hclosing⟩ =>
    have hd := depth_le_of_run_want h
    have hrun : run g (n :: a :: (b :: rest)) (.want stack) c
        = run g (b :: rest) (.opened n stack) c.enter.advance.advance := run_call hk hopening hd
    rw [Phrase.tokens] at h
    have hn := nodes_le_of_step (hrun ▸ h) (step_opened_closing hclosing)
    exact ⟨by simp only [Phrase.nesting]; omega, hn, List.forall_mem_nil _⟩
  | .call n a args, ⟨hk, hopening, hargs⟩ =>
    obtain ⟨t, ts, hts, ht⟩ := args.exists_tokens_eq_cons hargs
    have hd := depth_le_of_run_want h
    rw [Phrase.tokens, List.cons_append, List.cons_append, run_call hk hopening hd, hts,
      List.cons_append, run_opened ht, ← List.cons_append, ← hts] at h
    have hfit : FitsArguments g.limits c.enter.advance.advance ([] : List Expr).length args :=
      fits_of_run_arguments args hargs h
    have hnodes := hfit.nodes
    have hnesting := hfit.nesting
    have hlength := hfit.length
    simp only [Cursor.enter, Cursor.advance] at hnodes hnesting
    refine ⟨?_, ?_, fun m hm => ?_⟩
    · simp only [Phrase.nesting]; omega
    · simp only [Phrase.expr, Expr.size]; omega
    · rcases List.mem_cons.1 hm with rfl | hm
      · simpa using hlength
      · exact hfit.arities m hm

theorem fits_of_run_arguments (args : Arguments) (hargs : args.Grammatical g.precedence)
    {n : Token} {before : List Expr} {stack : List Frame} {rest : List Token} {c : Cursor}
    (h : ¬ (run g (args.tokens ++ rest) (.want (.arg n before :: stack)) c).IsLimit) :
    FitsArguments g.limits c before.length args := by
  match args, hargs with
  | .last e b, ⟨hclosing, hopen, he⟩ =>
    have hkb : b.kind ≠ .operator := by rw [Token.kind_of_isClosing hclosing]; decide
    have hb : b.isOpening = false := Token.isOpening_of_isClosing hclosing
    have hre : ∀ level ∈ e.rightSpine g.precedence, takes g level (b :: rest).head? = .ok none :=
      takes_head?_of_kind_ne hkb _
    have hopen : e.OpenAt g.precedence (floor (.arg n before :: stack)) := hopen
    rw [Arguments.tokens, List.append_assoc, List.singleton_append] at h
    have hfit : Fits g.limits c e := fits_of_run e he hopen hre hb h
    rw [run_phrase e he hopen hre hb hfit] at h
    have hlength := arguments_le_of_run h (takes_of_kind_ne _ hkb)
    have hn := nodes_le_of_step h (step_have_lastArg hclosing hlength)
    have hnesting := hfit.nesting
    simp only [Cursor.past, Cursor.advance, Cursor.leave] at hn
    refine ⟨?_, ?_, hfit.arities, ?_⟩
    · simp only [Arguments.nesting]; omega
    · simp only [Arguments.exprs, Expr.sizeAll]; omega
    · simp only [Arguments.length]; omega
  | .more e comma others, ⟨hk, hopen, he, hothers⟩ =>
    have hko : comma.kind ≠ .operator := by rw [hk]; decide
    have hco : comma.isOpening = false := Token.isOpening_eq_false (by rw [hk]; decide)
    have hre : ∀ level ∈ e.rightSpine g.precedence,
        takes g level (comma :: (others.tokens ++ rest)).head? = .ok none :=
      takes_head?_of_kind_ne hko _
    have hopen : e.OpenAt g.precedence (floor (.arg n before :: stack)) := hopen
    rw [Arguments.tokens, List.append_assoc, List.cons_append] at h
    have hfit : Fits g.limits c e := fits_of_run e he hopen hre hco h
    rw [run_phrase e he hopen hre hco hfit] at h
    have hlength := arguments_le_of_run h (takes_of_kind_ne _ hko)
    rw [run_have_arg hk hlength] at h
    have hfits := fits_of_run_arguments others hothers h
    have hnesting := hfit.nesting
    have hnodes := hfits.nodes
    have hnestings := hfits.nesting
    have hlengths := hfits.length
    rw [List.length_append, List.length_singleton] at hlengths
    simp only [Cursor.past, Cursor.advance, Cursor.leave] at hnodes hnestings
    refine ⟨?_, ?_, fun m hm => ?_, ?_⟩
    · simp only [Arguments.nesting]; omega
    · simp only [Arguments.exprs, Expr.sizeAll]; omega
    · rcases List.mem_append.1 hm with hm | hm
      · exact hfit.arities m hm
      · exact hfits.arities m hm
    · simp only [Arguments.length]; omega
end

/-! ## What the limits admit -/

variable {p : Precedence} {l l' : Limits} {source : Option String} {ts : List Token}

/-- A whole phrase that is accepted has room within the limits. -/
theorem fits_of_parse {f : Phrase} (hf : f.Whole p) {e : Expr}
    (h : (parse p l source f.tokens).1 = .ok e) : Fits l {} f := by
  have hrun : ¬ (run (grammarFor p l source f.tokens) (f.tokens ++ []) (.want []) {}).IsLimit := by
    intro hlimit
    rw [List.append_nil] at hlimit
    obtain ⟨failure, hfailure, -⟩ := exceeds_of_isLimit hlimit
    rw [h] at hfailure
    cases hfailure
  have hopen : f.OpenAt p (floor []) := hf.openAt
  exact fits_of_run (g := grammarFor p l source f.tokens) f hf.grammatical hopen
    (fun level _ => rfl) rfl hrun

/-- Whole phrases are accepted exactly when they have room within the limits. -/
theorem parse_eq_ok_iff_fits {f : Phrase} (hf : f.Whole p) :
    (parse p l source f.tokens).1 = .ok f.expr ↔ Fits l {} f :=
  ⟨fits_of_parse hf, parse_of_fits hf⟩

theorem fits_iff_admitted {f : Phrase} (ha : 0 ≤ l.arguments) : Fits l {} f ↔ f.Admitted l := by
  have hcost := f.cost_eq_nesting
  constructor
  · rintro ⟨hnesting, hnodes, harities⟩
    simp only at hnesting hnodes
    exact ⟨by omega, (Phrase.forall_arities_iff ha).1 harities, by omega⟩
  · rintro ⟨hnodes, harities, hnesting⟩
    refine ⟨?_, ?_, (Phrase.forall_arities_iff ha).2 harities⟩
    · simp only; omega
    · simp only; omega

/-- More room is room enough. -/
theorem Fits.mono {c : Cursor} {f : Phrase} (h : Fits l c f) (hl : l.Within l') : Fits l' c f :=
  ⟨Int.le_trans h.nesting hl.nestingDepth, Int.le_trans h.nodes hl.nodes,
    fun n hn => Int.le_trans (h.arities n hn) hl.arguments⟩

end Parser

/-- The least bound from `bound` on that admits all of some numbers. -/
def raiseTo (bound : Int) : List Nat → Int
  | [] => bound
  | n :: ns => max n (raiseTo bound ns)

theorem le_raiseTo_self (bound : Int) (ns : List Nat) : bound ≤ raiseTo bound ns := by
  induction ns with
  | nil => exact Int.le_refl _
  | cons n ns ih => exact Int.le_trans ih (Int.le_max_right ..)

theorem le_raiseTo {bound : Int} {ns : List Nat} :
    ∀ n ∈ ns, (n : Int) ≤ raiseTo bound ns := by
  induction ns with
  | nil => exact List.forall_mem_nil _
  | cons n ns ih =>
    intro m hm
    rcases List.mem_cons.1 hm with rfl | hm
    · exact Int.le_max_left ..
    · exact Int.le_trans (ih m hm) (Int.le_max_right ..)

/-- A bound is raised for a number that it does not admit. -/
theorem exists_of_lt_raiseTo {bound : Int} {ns : List Nat} (h : bound < raiseTo bound ns) :
    ∃ n ∈ ns, bound < n := by
  induction ns with
  | nil => exact absurd h (Int.lt_irrefl _)
  | cons n ns ih =>
    have hmax : bound < max (n : Int) (raiseTo bound ns) := h
    by_cases hn : bound < n
    · exact ⟨n, List.mem_cons_self .., hn⟩
    · obtain ⟨m, hm, hlt⟩ := ih (by omega)
      exact ⟨m, List.mem_cons_of_mem _ hm, hlt⟩

/-- Limits raised as far as a phrase needs it. -/
def Limits.raiseFor (l : Limits) (f : Phrase) : Limits :=
  { l with
    nestingDepth := raiseTo l.nestingDepth [f.cost]
    nodes := raiseTo l.nodes [f.expr.size]
    arguments := raiseTo l.arguments f.arities }

theorem Limits.within_raiseFor (l : Limits) (f : Phrase) : l.Within (l.raiseFor f) :=
  ⟨le_raiseTo_self .., le_raiseTo_self .., le_raiseTo_self ..⟩

/-- What is raised is a limit that the phrase exceeds. -/
theorem Limits.overruns_of_raiseFor {l : Limits} {f : Phrase} {limit : Limit}
    (h : limit.bound l < limit.bound (l.raiseFor f)) : f.Overruns l limit := by
  cases limit with
  | expressionLength => exact absurd h (Int.lt_irrefl _)
  | nestingDepth =>
    obtain ⟨n, hn, hlt⟩ := exists_of_lt_raiseTo h
    rwa [List.mem_singleton.1 hn] at hlt
  | nodes =>
    obtain ⟨n, hn, hlt⟩ := exists_of_lt_raiseTo h
    rwa [List.mem_singleton.1 hn] at hlt
  | arguments => exact exists_of_lt_raiseTo h

namespace Parser

variable {p : Precedence} {l l' : Limits} {source : Option String} {ts : List Token}

theorem fits_raiseFor (l : Limits) (f : Phrase) : Fits (l.raiseFor f) {} f := by
  have hcost := f.cost_eq_nesting
  have hnesting : (f.cost : Int) ≤ (l.raiseFor f).nestingDepth :=
    le_raiseTo _ (List.mem_singleton_self _)
  have hnodes : (f.expr.size : Int) ≤ (l.raiseFor f).nodes :=
    le_raiseTo _ (List.mem_singleton_self _)
  refine ⟨?_, ?_, le_raiseTo⟩
  · simp only; omega
  · simp only; omega

/-- A whole phrase without room within the limits is refused with a limit that it exceeds. -/
theorem exists_reports_of_not_fits {f : Phrase} (hf : f.Whole p) (h : ¬ Fits l {} f) :
    ∃ failure limit, (parse p l source f.tokens).1 = .error failure
      ∧ failure.Reports l limit ∧ f.Overruns l limit := by
  have hwithin : (grammarFor p l source f.tokens).limits.Within (l.raiseFor f) :=
    l.within_raiseFor f
  obtain ⟨t, ts, hts, -⟩ := f.exists_tokens_eq_cons hf.grammatical
  rcases run_raised hwithin f.tokens (.want []) {} with hsame | hraised
  · have hdone := run_of_fits (g := (grammarFor p l source f.tokens).within (l.raiseFor f)) hf
      (fits_raiseFor l f)
    exact absurd (fits_of_parse hf (parse_of_done (hsame.trans hdone) (Nat.zero_add _))) h
  · rw [hts] at hraised ⊢
    obtain ⟨failure, hfailure, limit, hlt, hreports⟩ := exists_error_of_fails hraised
    exact ⟨failure, limit, hfailure, hreports, Limits.overruns_of_raiseFor hlt⟩

/-- Where nesting is the only charge that is too large, nesting is reported. -/
theorem exists_nestingTooDeep {f : Phrase} (hf : f.Whole p) (hnodes : (f.expr.size : Int) ≤ l.nodes)
    (harguments : ∀ n ∈ f.arities, (n : Int) ≤ l.arguments) (hnesting : l.nestingDepth < f.cost) :
    ∃ e : Error, (parse p l source f.tokens).1 = .error (.error e)
      ∧ e.problem = .nestingTooDeep l.nestingDepth := by
  have hcost := f.cost_eq_nesting
  have hnot : ¬ Fits l {} f := by
    intro hfit
    have := hfit.nesting
    simp only at this
    omega
  have hreport : ∃ failure limit, (parse p l source f.tokens).1 = .error failure
      ∧ failure.Reports l limit ∧ f.Overruns l limit := exists_reports_of_not_fits hf hnot
  obtain ⟨failure, limit, hfailure, hreports, hover⟩ := hreport
  cases failure with
  | fault fault => exact hreports.elim
  | error e =>
    obtain ⟨actual, -, hproblem⟩ := hreports
    cases limit with
    | expressionLength => exact hover.elim
    | nestingDepth => exact ⟨e, hfailure, hproblem⟩
    | nodes => exact absurd hnodes (Int.not_le.2 hover)
    | arguments =>
      obtain ⟨n, hn, hlt⟩ := hover
      exact absurd (harguments n hn) (Int.not_le.2 hlt)

/-- More room changes no answer. -/
theorem parse_mono (hl : l.Within l') {e : Expr} (h : (parse p l source ts).1 = .ok e) :
    (parse p l' source ts).1 = .ok e := by
  obtain ⟨f, hf, rfl, rfl⟩ := of_parse_eq_ok h
  exact parse_of_fits hf ((fits_of_parse hf h).mono hl)

/-- What the limits mean. Tokens that are accepted under some limits, such as limits that cannot be
reached, have a token for each node of their tree, and are the tokens of one phrase. Under other
limits they are accepted, with the same tree, exactly when the charges of the phrase are within
them; else a limit that the phrase exceeds is reported, and it is the one on nesting if no other
is exceeded. Tokens that are rejected under limits that cannot be reached are accepted under none.
So more room never changes the tree of what is accepted. -/
theorem parse_iff_admitted (p : Precedence) (source : Option String) (ts : List Token) :
    (∀ l₀ t, (parse p l₀ source ts).1 = .ok t →
        ts.countP Token.makesNode = t.size
          ∧ ∃ f : Phrase, f.Whole p ∧ f.tokens = ts ∧ f.expr = t
            ∧ (∀ f' : Phrase, f'.Whole p → f'.tokens = ts → f' = f)
            ∧ ∀ l : Limits, 0 ≤ l.arguments →
              ((parse p l source ts).1 = .ok t ↔ f.Admitted l)
                ∧ (¬ f.Admitted l → ∃ failure limit, (parse p l source ts).1 = .error failure
                    ∧ failure.Reports l limit ∧ f.Overruns l limit)
                ∧ ((t.size : Int) ≤ l.nodes → (∀ n ∈ t.arities, (n : Int) ≤ l.arguments) →
                    l.nestingDepth < f.cost →
                    ∃ e : Error, (parse p l source ts).1 = .error (.error e)
                      ∧ e.problem = .nestingTooDeep l.nestingDepth))
      ∧ (∀ l₀ : Limits, l₀.Roomy (ts.length + 1) → (∀ t, (parse p l₀ source ts).1 ≠ .ok t) →
          ∀ l t, (parse p l source ts).1 ≠ .ok t)
      ∧ ∀ (l l' : Limits) t, l.Within l' → (parse p l source ts).1 = .ok t →
          (parse p l' source ts).1 = .ok t := by
  refine ⟨fun l₀ t h => ?_, fun l₀ hroomy hrejected l t h => ?_, fun l l' t hl h => parse_mono hl h⟩
  · obtain ⟨f, hf, rfl, rfl⟩ := of_parse_eq_ok h
    refine ⟨f.countP_makesNode hf.grammatical, f, hf, rfl, rfl,
      fun f' hf' hts => hf'.eq_of_tokens_eq hf hts, fun l ha => ⟨?_, fun hnot => ?_, ?_⟩⟩
    · exact (parse_eq_ok_iff_fits hf).trans (fits_iff_admitted ha)
    · exact exists_reports_of_not_fits hf fun hfit => hnot ((fits_iff_admitted ha).1 hfit)
    · exact fun hnodes harguments =>
        exists_nestingTooDeep hf hnodes ((Phrase.forall_arities_iff ha).2 harguments)
  · obtain ⟨f, hf, rfl, rfl⟩ := of_parse_eq_ok h
    have hfit : Fits l₀ {} f := fits_of_roomy
      ⟨by have := hroomy.nestingDepth; omega, by have := hroomy.nodes; omega,
        by have := hroomy.arguments; omega⟩
    exact hrejected f.expr (parse_of_fits hf hfit)

/-- The tokens of `-f(1, (2)) + 3`: the group in the call in the operand of the sign costs 4. -/
def signedCall : List Token :=
  [⟨.operator, "-", 0⟩, ⟨.identifier, "f", 1⟩, ⟨.parenthesis, "(", 2⟩, ⟨.constant, "1", 3⟩,
    ⟨.comma, ",", 4⟩, ⟨.parenthesis, "(", 6⟩, ⟨.constant, "2", 7⟩, ⟨.parenthesis, ")", 8⟩,
    ⟨.parenthesis, ")", 9⟩, ⟨.operator, "+", 11⟩, ⟨.constant, "3", 13⟩]

theorem parse_signedCall :
    ∃ t, (parse .default {} none signedCall).1 = .ok t
      ∧ signedCall.countP Token.makesNode = t.size
      ∧ (parse .default ⟨0, 4, 6, 2⟩ none signedCall).1 = .ok t
      ∧ (parse .default ⟨0, 64, 6, 2⟩ none signedCall).1 = .ok t
      ∧ (∃ e : Error, (parse .default ⟨0, 3, 6, 2⟩ none signedCall).1 = .error (.error e)
          ∧ e.problem = .nestingTooDeep 3)
      ∧ ∀ l t, (parse .default l none (signedCall ++ [⟨.comma, ",", 14⟩])).1 ≠ .ok t := by
  obtain ⟨hadmitted, -, hmono⟩ := parse_iff_admitted .default none signedCall
  have hrejected := (parse_iff_admitted .default none (signedCall ++ [⟨.comma, ",", 14⟩])).2.1
  have hparse : (parse .default {} none signedCall).1 = .ok _ := rfl
  obtain ⟨hcount, f, -, -, hexpr, -, hlimits⟩ := hadmitted {} _ hparse
  have htight : (parse .default ⟨0, 4, 6, 2⟩ none signedCall).1 = .ok _ := rfl
  have hcharges := ((hlimits ⟨0, 4, 6, 2⟩ (by decide)).1).1 htight
  have hdeep : ¬ f.Admitted ⟨0, 3, 6, 2⟩ := by
    intro h
    have hrefused : (parse .default ⟨0, 3, 6, 2⟩ none signedCall).1 = .error _ := rfl
    have hok := ((hlimits ⟨0, 3, 6, 2⟩ (by decide)).1).2 h
    rw [hrefused] at hok
    cases hok
  refine ⟨_, hparse, hcount, htight, hmono ⟨0, 4, 6, 2⟩ ⟨0, 64, 6, 2⟩ _
    ⟨by decide, by decide, by decide⟩ htight, ?_, ?_⟩
  · refine (hlimits ⟨0, 3, 6, 2⟩ (by decide)).2.2 (hexpr ▸ hcharges.nodes)
      (hexpr ▸ hcharges.arguments) (Int.not_le.1 fun hnesting => hdeep ?_)
    exact ⟨hcharges.nodes, hcharges.arguments, hnesting⟩
  · refine hrejected ⟨0, 64, 64, 64⟩ ⟨by decide, by decide, by decide⟩ fun t hok => ?_
    have herror : (parse .default ⟨0, 64, 64, 64⟩ none (signedCall ++ [⟨.comma, ",", 14⟩])).1
        = .error _ := rfl
    rw [herror] at hok
    cases hok

end Parser

end Reckon
