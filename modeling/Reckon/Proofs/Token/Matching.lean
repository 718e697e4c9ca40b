import Mathlib.Data.List.Induction
import Mathlib.Data.Nat.Basic
import Mathlib.Order.Basic
import Reckon.Proofs.Token.Longest
/-
  Matching from any position. A match looks at no more characters than the longest operator has
  (`OperatorTrie.view`), which is as good as looking at all that is left of the text: no operator is
  longer (`OperatorTrie.match?_take`). What is found there is the operator that stands there and is
  longest (`OperatorTrie.match?_eq_some_iff`), so it depends on which operators were entered, not
  on their order nor on how often each was. The main statement is `OperatorTrie.matchAt_longest`.
-/
namespace Reckon

/-- There is one longest beginning at most. -/
theorem Longest.unique {P : List Char → Prop} {w u cs : List Char} (hw : Longest P w cs)
    (hu : Longest P u cs) : w = u := by
  have hlength : w.length = u.length := Nat.le_antisymm
    (hu.longest w hw.isPrefix hw.holds) (hw.longest u hu.isPrefix hu.holds)
  have hprefix : w <+: u :=
    List.prefix_of_prefix_length_le hw.isPrefix hu.isPrefix (Nat.le_of_eq hlength)
  exact hprefix.eq_of_length hlength

namespace OperatorTrie

/-! ## Entering operators -/

theorem operators_ofList (ops : List String) : (ofList ops).operators = ops.eraseDups := by
  induction ops using List.reverseRecOn with
  | nil => rfl
  | append_singleton ops op ih =>
    have hinsert : (ofList (ops ++ [op])).operators
        = if op ∈ (ofList ops).operators then (ofList ops).operators
          else (ofList ops).operators ++ [op] := by
      rw [ofList, List.foldl_append]
      rfl
    rw [hinsert, ih, List.eraseDups_append]
    by_cases hop : op ∈ ops
    · simp [hop, List.removeAll]
    · simp [hop, List.removeAll, List.eraseDups_cons]

theorem longest_foldl_le_iff {ops : List String} {t : OperatorTrie} {n : Nat} :
    (ops.foldl insert t).longest ≤ n ↔ t.longest ≤ n ∧ ∀ op ∈ ops, op.toList.length ≤ n := by
  induction ops generalizing t with
  | nil => simp
  | cons op ops ih =>
    have hinsert : (t.insert op).longest ≤ n ↔ t.longest ≤ n ∧ op.toList.length ≤ n :=
      Nat.max_le
    rw [List.foldl_cons, ih, hinsert, List.forall_mem_cons, and_assoc]

/-- The bound of a match is the least one that no operator exceeds. -/
theorem longest_ofList_le_iff {ops : List String} {n : Nat} :
    (ofList ops).longest ≤ n ↔ ∀ op ∈ ops, op.toList.length ≤ n := by
  rw [ofList, longest_foldl_le_iff]
  exact and_iff_right (Nat.zero_le n)

theorem longest_ofList (ops : List String) :
    (ofList ops).longest = (ops.map (·.toList.length)).max?.getD 0 := by
  refine eq_of_forall_ge_iff fun n => ?_
  rw [longest_ofList_le_iff]
  cases hmax : (ops.map (·.toList.length)).max? with
  | none =>
    have hnil : ops = [] := List.map_eq_nil_iff.1 (List.max?_eq_none_iff.1 hmax)
    simp [hnil]
  | some m =>
    rw [Option.getD_some, List.max?_le_iff hmax, List.forall_mem_map]

/-! ## Finding them -/

theorem match?_eq_some_iff {ops : List String} {cs w : List Char} :
    (ofList ops).match? cs = some w
      ↔ w ≠ [] ∧ Longest (fun u => String.ofList u ∈ ops) w cs := by
  constructor
  · intro h
    exact ⟨(has_ofList.1 (Trie.of_longestMatch _ _ _ h).1).1, Lexeme.longest_match h⟩
  · rintro ⟨hne, hlongest⟩
    obtain ⟨u, hu, -⟩ := Trie.exists_longestMatch (ofList ops).root cs w
      (has_ofList.2 ⟨hne, hlongest.holds⟩) hlongest.isPrefix
    rw [hlongest.unique (Lexeme.longest_match hu)]
    exact hu

theorem match?_eq_none {ops : List String} {cs : List Char}
    (h : ∀ op ∈ ops, ¬ op.toList <+: cs) : (ofList ops).match? cs = none := by
  refine Option.eq_none_iff_forall_ne_some.2 fun w hw => ?_
  have hlongest := Lexeme.longest_match hw
  refine h _ hlongest.holds ?_
  rw [String.toList_ofList]
  exact hlongest.isPrefix

/-- Looking no further than the longest operator reaches finds the same. -/
theorem match?_take (ops : List String) (cs : List Char) :
    (ofList ops).match? (cs.take (ofList ops).longest) = (ofList ops).match? cs := by
  have hshort : ∀ u : List Char, String.ofList u ∈ ops → u.length ≤ (ofList ops).longest := by
    intro u hu
    have := longest_ofList_le_iff.1 (Nat.le_refl _) _ hu
    rwa [String.toList_ofList] at this
  ext w
  rw [match?_eq_some_iff, match?_eq_some_iff]
  refine and_congr_right fun _ => ⟨fun h => ⟨?_, h.holds, fun u hu hops => ?_⟩,
    fun h => ⟨?_, h.holds, fun u hu hops => ?_⟩⟩
  · exact h.isPrefix.trans (List.take_prefix ..)
  · exact h.longest u (List.prefix_take_iff.2 ⟨hu, hshort u hops⟩) hops
  · exact List.prefix_take_iff.2 ⟨h.isPrefix, hshort w h.holds⟩
  · exact h.longest u (hu.trans (List.take_prefix ..)) hops

/-- From a position that does not count back, a match looks at what is left of the text. -/
theorem view_ofNat (t : OperatorTrie) (text : List Char) (position : Nat) :
    t.view text position = .ok ((text.drop position).take t.longest) := by
  unfold view
  by_cases hstop : min (text.length : Int) (position + t.longest) ≤ position
  · have hnil : (text.drop position).take t.longest = [] := by
      rw [List.take_eq_nil_iff, List.drop_eq_nil_iff]
      omega
    simp only [hstop, if_true, hnil]
  · simp only [hstop, if_false, Int.natCast_nonneg, if_true, Int.toNat_natCast]

/-- What is found, said of the operators. -/
theorem map_match?_eq_some_iff {ops : List String} (hops : ∀ op ∈ ops, op ≠ "") {cs : List Char}
    {op : String} : ((ofList ops).match? cs).map String.ofList = some op
      ↔ op ∈ ops ∧ op.toList <+: cs
        ∧ ∀ other ∈ ops, other.toList <+: cs → other.toList.length ≤ op.toList.length := by
  rw [Option.map_eq_some_iff]
  constructor
  · rintro ⟨w, hw, rfl⟩
    obtain ⟨-, hlongest⟩ := match?_eq_some_iff.1 hw
    refine ⟨hlongest.holds, by rw [String.toList_ofList]; exact hlongest.isPrefix, ?_⟩
    intro other hother hpre
    rw [String.toList_ofList]
    refine hlongest.longest _ hpre ?_
    rwa [String.ofList_toList]
  · rintro ⟨hop, hpre, hlongest⟩
    refine ⟨op.toList, match?_eq_some_iff.2 ⟨?_, hpre, ?_, fun u hu hmem => ?_⟩,
      String.ofList_toList⟩
    · exact fun hnil => hops op hop (String.toList_eq_nil_iff.1 hnil)
    · rwa [String.ofList_toList]
    · have := hlongest _ hmem
      rw [String.toList_ofList] at this
      exact this hu

theorem map_match?_eq_none_iff {ops : List String} (hops : ∀ op ∈ ops, op ≠ "") {cs : List Char} :
    ((ofList ops).match? cs).map String.ofList = none ↔ ∀ op ∈ ops, ¬ op.toList <+: cs := by
  rw [Option.map_eq_none_iff]
  constructor
  · intro hnone op hop hpre
    have hhas : (ofList ops).root.has op.toList = true := by
      refine has_ofList.2 ⟨fun hnil => hops op hop (String.toList_eq_nil_iff.1 hnil), ?_⟩
      rwa [String.ofList_toList]
    obtain ⟨u, hu, -⟩ := Trie.exists_longestMatch _ cs _ hhas hpre
    exact absurd (hnone.symm.trans hu) (by simp)
  · exact match?_eq_none

theorem matchAt_ofNat (ops : List String) (text : String) (position : Nat) :
    (ofList ops).matchAt text position
      = .ok (((ofList ops).match? (text.toList.drop position)).map String.ofList) := by
  rw [matchAt, view_ofNat, ← match?_take]
  rfl

/-- Operators are found the same wherever they are looked for, in whatever order and however often
they were entered. -/
theorem matchAt_congr {ops ops' : List String} (h : ∀ op, op ∈ ops' ↔ op ∈ ops) (text : String)
    (position : Int) :
    (ofList ops').matchAt text position = (ofList ops).matchAt text position := by
  have hlongest : (ofList ops').longest = (ofList ops).longest := by
    refine eq_of_forall_ge_iff fun n => ?_
    rw [longest_ofList_le_iff, longest_ofList_le_iff]
    exact forall_congr' fun op => imp_congr_left (h op)
  have hmatch : (ofList ops').match? = (ofList ops).match? := by
    ext cs w
    rw [match?_eq_some_iff, match?_eq_some_iff, funext fun u => propext (h (String.ofList u))]
  rw [matchAt, matchAt, view, view, hlongest, hmatch]

/-- Any texts with at least one character each are operators, and stay the operators they are. -/
theorem operators?_map {ops : List String} (hops : ∀ op ∈ ops, op ≠ "") :
    Datum.operators? (ops.map .str) = .ok ops := by
  induction ops with
  | nil => rfl
  | cons op ops ih =>
    have hfirst : (Datum.str op).operator? = .ok op := if_neg (hops op (List.mem_cons_self ..))
    have hrest := ih fun o ho => hops o (List.mem_cons_of_mem _ ho)
    rw [Datum.operators?] at hrest ⊢
    rw [List.map_cons, List.mapM_cons, hfirst, hrest]
    rfl

/-- The trie of any operators finds at any position of any text the longest of them that stands
there, and nothing exactly if none does; so it does not matter in which order and how often they are
entered. It has each of them once, in the order in which they first came, and the length of the
longest. -/
theorem matchAt_longest {ops : List String} (hops : ∀ op ∈ ops, op ≠ "") :
    Datum.operators? (ops.map .str) = .ok ops
      ∧ (∀ (text : String) (position : Nat), ∃ found,
          (ofList ops).matchAt text position = .ok found
          ∧ (∀ op, found = some op ↔ op ∈ ops ∧ op.toList <+: text.toList.drop position
              ∧ ∀ other ∈ ops, other.toList <+: text.toList.drop position →
                other.toList.length ≤ op.toList.length)
          ∧ (found = none ↔ ∀ op ∈ ops, ¬ op.toList <+: text.toList.drop position))
      ∧ (∀ ops' : List String, (∀ op, op ∈ ops' ↔ op ∈ ops) → ∀ (text : String) (position : Int),
          (ofList ops').matchAt text position = (ofList ops).matchAt text position)
      ∧ (ofList ops).operators = ops.eraseDups
      ∧ (ofList ops).longest = (ops.map (·.toList.length)).max?.getD 0 := by
  refine ⟨operators?_map hops, fun text position => ?_, fun _ h => matchAt_congr h,
    operators_ofList ops, longest_ofList ops⟩
  exact ⟨_, matchAt_ofNat ops text position, fun _ => map_match?_eq_some_iff hops,
    map_match?_eq_none_iff hops⟩

/-- The words `/` and `///` without `//` between them: two slashes are no more than one. -/
theorem matchAt_longest_gap :
    (∀ op ∈ ["*", "/", "///", "**", "*"], op ≠ "")
      ∧ Datum.operators? [.str "*", .str "/", .str "///", .str "**", .str "*"]
        = .ok ["*", "/", "///", "**", "*"]
      ∧ (ofList ["*", "/", "///", "**", "*"]).matchAt "a//b***" 1 = .ok (some "/")
      ∧ (ofList ["*", "/", "///", "**", "*"]).matchAt "a//b***" 4 = .ok (some "**")
      ∧ (ofList ["///", "**", "*", "/"]).matchAt "a//b***" 4 = .ok (some "**")
      ∧ (ofList ["*", "/", "///", "**", "*"]).operators = ["*", "/", "///", "**"]
      ∧ (ofList ["*", "/", "///", "**", "*"]).longest = 3 := by
  have hops : ∀ op ∈ ["*", "/", "///", "**", "*"], op ≠ "" := by decide
  obtain ⟨hdata, hfound, hset, hoperators, hlength⟩ := matchAt_longest hops
  obtain ⟨_, hslash, honeIff, -⟩ := hfound "a//b***" 1
  obtain ⟨_, hstars, htwoIff, -⟩ := hfound "a//b***" 4
  have hone := (honeIff "/").2 (by decide)
  have htwo := (htwoIff "**").2 (by decide)
  have hmembers : ∀ op, op ∈ ["///", "**", "*", "/"] ↔ op ∈ ["*", "/", "///", "**", "*"] := by
    intro op
    simp only [List.mem_cons]
    grind
  have hsame := hset ["///", "**", "*", "/"] hmembers "a//b***" 4
  exact ⟨hops, hdata, hone ▸ hslash, htwo ▸ hstars, hsame.trans (htwo ▸ hstars), hoperators,
    hlength⟩

end OperatorTrie

end Reckon
