import Reckon.Proofs.Expr.Viable
import Reckon.Proofs.Token.Longest
/-
  How texts are refused. A text is too long, or has problems that lie in the text
  (`Token.of_ofText_eq_error`). Tokens exceed a limit, or one of two levels has no order, or the
  complaint is about a token or about the end (`Parser.of_parse_eq_error_placed`), whatever the
  levels are. Levels that are read from plain data are whole numbers (`Precedence.integral_read`);
  with such levels there is no fault (`Parser.isComplaint_or_isLimit_of_parse`).
-/
namespace Reckon

/-! ## Tokens -/

namespace Token

variable {ops : List String} {operators : OperatorTrie} {limits : Limits} {text : String}
  {f : Failure}

/-- The tokens of a text cover it. -/
theorem cover_of_ofText {ts : List Token} (h : ofText (.ofList ops) limits text = .ok ts) :
    Cover ops 0 text.toList ts := by
  by_cases hlong : limits.expressionLength < text.toList.length
  · rw [ofText_eq_error_of_long hlong] at h
    exact absurd h (by simp)
  · rw [ofText_of_short (Int.not_lt.1 hlong)] at h
    obtain ⟨hdetails, rfl⟩ := Scan.result_eq_ok_iff.1 h
    exact (Lexeme.cut_ofText (.ofList ops) text.toList).cover hdetails

/-- A text without tokens is too long, or all its problems are reported. -/
theorem of_ofText_eq_error (h : ofText operators limits text = .error f) :
    f = .error (.ofLimit limits .expressionLength text.toList.length)
      ∨ ∃ first others, f = .error (.ofDetails first others text)
        ∧ LexicalDetail.InOrder 0 text.toList.length (first :: others) := by
  by_cases hlong : limits.expressionLength < text.toList.length
  · rw [ofText_eq_error_of_long hlong] at h
    exact Or.inl (Except.error.inj h).symm
  · right
    rw [ofText_of_short (Int.not_lt.1 hlong)] at h
    have hinOrder : LexicalDetail.InOrder 0 text.toList.length
        (Scan.ofText operators text).details := by
      have := (Lexeme.cut_ofText operators text.toList).inOrder 0
      rwa [Nat.zero_add] at this
    cases hdetails : (Scan.ofText operators text).details with
    | nil =>
      rw [Scan.result_eq_ok_iff.2 ⟨hdetails, rfl⟩] at h
      exact absurd h (by simp)
    | cons first others =>
      rw [Scan.result_eq_error hdetails] at h
      rw [hdetails] at hinOrder
      exact ⟨first, others, (Except.error.inj h).symm, hinOrder⟩

end Token

/-! ## Trees -/

namespace Parser

variable {p : Precedence} {l : Limits} {source : Option String} {ts : List Token} {f : Failure}

/-- A complaint about the end of the tokens, or about one of them. -/
def Placed (source : Option String) (ts : List Token) (f : Failure) : Prop :=
  ∃ problem position,
    f = .error { problem := .grammar problem, position := some position, expression := source }
      ∧ (position = stopOf source ts ∨ ∃ t ∈ ts, position = t.position)

theorem placed_of_mem_end (h : f ∈ complaints (grammarFor p l source ts) none) :
    Placed source ts f := by
  obtain ⟨problem, -, rfl⟩ := of_mem_complaints_end h
  exact ⟨problem, _, rfl, Or.inl rfl⟩

theorem placed_of_mem_token {t : Token} (ht : t ∈ ts)
    (h : f ∈ complaints (grammarFor p l source ts) (some t)) : Placed source ts f := by
  obtain ⟨problem, -, rfl⟩ := of_mem_complaints_token h
  exact ⟨problem t.text, _, rfl, Or.inr ⟨t, ht, rfl⟩⟩

/-- What a step that stops in front of the next token comes to. -/
theorem of_blames {g : Grammar} {next : Option Token} {index : Nat} {c : Cursor} {s : Step}
    (hs : s = .fail f c ∨ s = .refused f c) (hblames : s.Blames g next index) :
    f.IsLimit ∨ (∃ fault, f = .fault fault) ∨ f ∈ complaints g next := by
  rcases hs with rfl | rfl
  · exact hblames.imp id (Or.imp id And.right)
  · exact Or.inl hblames

/-- Tokens that are refused exceed a limit, or two of the levels have no order, or the complaint is
about the end or a token. -/
theorem of_parse_eq_error_placed (h : (parse p l source ts).1 = .error f) :
    f.IsLimit ∨ (∃ fault, f = .fault fault) ∨ Placed source ts f := by
  rcases Classical.em f.IsLimit with hlimit | hlimit
  · exact Or.inl hlimit
  right
  have hl : ¬ Exceeds p l source ts := by
    rintro ⟨f', hf', hlimit'⟩
    rw [Except.error.inj (h.symm.trans hf')] at hlimit
    exact hlimit hlimit'
  obtain ⟨hfinal, hrun⟩ := of_parse_eq_error hl h
  obtain ⟨c, hfail, -⟩ | ⟨e, c, t, -, htrailing, rfl, -⟩ := hrun
  · have hstart : Reads p (.want []) [] ts.head? := .want .start
    rcases of_final_run (g := grammarFor p l source ts) hstart hfinal with
      ⟨mode, c', -, -, hend⟩ | ⟨pre, t, post, mode, after, c', hts, -, -, hstep, -⟩
    · rw [hend] at hfail
      have hcases := of_blames hfail (blames_finish mode c')
      exact (hcases.resolve_left hlimit).imp id placed_of_mem_end
    · rw [hstep] at hfail
      have ht : t ∈ ts := by
        rw [hts]
        exact List.mem_append_right _ (List.mem_cons_self ..)
      have hcases := of_blames hfail (blames_step after mode c')
      exact (hcases.resolve_left hlimit).imp id (placed_of_mem_token ht)
  · have ht : t ∈ ts := List.mem_of_mem_drop (List.mem_of_mem_head? htrailing)
    exact Or.inr ⟨_, _, rfl, Or.inr ⟨t, ht, rfl⟩⟩

/-- With levels that are whole numbers there are errors only. -/
theorem isComplaint_or_isLimit_of_parse (hp : p.Integral)
    (h : (parse p l source ts).1 = .error f) : f.IsComplaint source ∨ f.IsLimit := by
  rcases Classical.em (Exceeds p l source ts) with ⟨f', hf', hlimit⟩ | hl
  · rw [← Except.error.inj (h.symm.trans hf')] at hlimit
    exact Or.inr hlimit
  · exact Or.inl (isComplaint_of_parse hp hl h)

end Parser

/-! ## Levels -/

namespace Precedence

/-- A table of levels that are whole numbers. -/
def Whole (t : Table Level) : Prop :=
  ∀ op level, levelIn t op = some level → ∃ m : Int, level = .int m

theorem integral_iff {p : Precedence} : p.Integral ↔ Whole p.unary ∧ Whole p.binary :=
  ⟨fun h => ⟨h.unary, h.binary⟩, fun h => ⟨h.1, h.2⟩⟩

theorem int_of_checkLevels {arity : String} {entries : List (String × Datum)}
    (h : checkLevels arity entries = .ok ()) : ∀ e ∈ entries, ∃ m : Int, e.2 = .int m := by
  induction entries with
  | nil => exact List.forall_mem_nil _
  | cons e entries ih =>
    obtain ⟨op, level⟩ := e
    cases level with
    | int m =>
      intro x hx
      rcases List.mem_cons.1 hx with rfl | hx
      · exact ⟨m, rfl⟩
      · exact ih h x hx
    | none | bool | float | str | list | dict => exact absurd h (by simp [checkLevels])

theorem find?_of_levelIn {t : Table Level} {op : String} {level : Level}
    (h : levelIn t op = some level) : t.find? op = some level := by
  unfold levelIn at h
  split at h
  · exact absurd h (by simp)
  · exact h

/-- Tables whose entries all have a property, those under keys that are no texts included. -/
structure Lists (L : String → Level → Prop) (p : Precedence) : Prop where
  unary : ∀ e ∈ p.shownUnary, L e.1 e.2
  binary : ∀ e ∈ p.shownBinary, L e.1 e.2

theorem Lists.imp {L L' : String → Level → Prop} {p : Precedence} (h : p.Lists L)
    (himp : ∀ op level, L op level → L' op level) : p.Lists L' :=
  ⟨fun e he => himp _ _ (h.unary e he), fun e he => himp _ _ (h.binary e he)⟩

theorem Lists.integral {p : Precedence} (h : p.Lists fun _ level => ∃ m : Int, level = .int m) :
    p.Integral :=
  integral_of_mem (fun e he => h.unary e (List.mem_append_left _ he))
    fun e he => h.binary e (List.mem_append_left _ he)

/-- Tables that are read from plain data hold whole numbers only. -/
theorem lists_ofDatum {d : Datum} {p : Precedence} (h : ofDatum d = .ok p) :
    p.Lists fun _ level => ∃ m : Int, level = .int m := by
  cases d with
  | none =>
    rw [← Except.ok.inj h]
    exact ⟨by simp [shownUnary, default], by simp [shownBinary, default]⟩
  | dict entries =>
    obtain ⟨unary, -, h⟩ := exists_of_bind_eq_ok h
    obtain ⟨_, hunary, h⟩ := exists_of_bind_eq_ok h
    obtain ⟨binary, -, h⟩ := exists_of_bind_eq_ok h
    obtain ⟨_, hbinary, h⟩ := exists_of_bind_eq_ok h
    obtain ⟨right, -, h⟩ := exists_of_bind_eq_ok h
    rw [← Except.ok.inj h]
    refine ⟨fun e he => ?_, fun e he => ?_⟩
    · rw [shownUnary, List.map_nil, List.append_nil] at he
      exact int_of_checkLevels hunary e (Table.mem_of_mem_ofEntries he)
    · rw [shownBinary, List.map_nil, List.append_nil] at he
      exact int_of_checkLevels hbinary e (Table.mem_of_mem_ofEntries he)
  | bool | int | float | str | list => exact absurd h (by simp [ofDatum])

/-- Levels that are given as plain data, still to be checked. -/
def Source.IsData : Source → Prop
  | .datum _ => True
  | .table _ => False

theorem lists_read {source : Source} (hs : source.IsData) {p : Precedence}
    (h : ofSource source = .ok p) : p.Lists fun _ level => ∃ m : Int, level = .int m := by
  cases source with
  | datum d => exact lists_ofDatum h
  | table p => exact hs.elim

/-- Levels that are read from plain data are whole numbers. -/
theorem integral_read {source : Source} (hs : source.IsData) {p : Precedence}
    (h : ofSource source = .ok p) : p.Integral := (lists_read hs h).integral

theorem levelIn_insert {t : Table Level} {name op : String} (level : Level) (h : name ≠ op) :
    levelIn (t.insert name level) op = levelIn t op := by
  unfold levelIn
  rw [Table.find?_insert, if_neg h]

theorem Whole.insert {t : Table Level} (h : Whole t) (name : String) (m : Int) :
    Whole (t.insert name (.int m)) := by
  intro op level hlevel
  by_cases hname : name = op
  · have hfind := find?_of_levelIn hlevel
    rw [Table.find?_insert, if_pos hname] at hfind
    exact ⟨m, (Option.some.inj hfind).symm⟩
  · rw [levelIn_insert _ hname] at hlevel
    exact h op level hlevel

end Precedence

end Reckon
