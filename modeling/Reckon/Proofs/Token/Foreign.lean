import Reckon.Proofs.Token.Scanning
/-
  Operators that a text does not hold. A match looks for the longest operator at the start of what is
  left of the text, and finds one that stands there. So an operator that stands nowhere in a text is
  never found, and what is found instead does not depend on it: with operators that differ in such
  operators only, a text has the same tokens or the same problems (`Token.ofText_of_foreign`).
-/
namespace Reckon

/-- Tries that have the same words of those that a text starts with find the same one. -/
theorem Trie.longestMatch_congr {t t' : Trie} {cs : List Char}
    (h : ∀ w, w <+: cs → t'.has w = t.has w) : t'.longestMatch cs = t.longestMatch cs := by
  cases hw : t.longestMatch cs with
  | none =>
    cases hu : t'.longestMatch cs with
    | none => rfl
    | some u =>
      obtain ⟨hhas, hpre⟩ := of_longestMatch t' cs u hu
      rw [h u hpre] at hhas
      obtain ⟨v, hv, -⟩ := exists_longestMatch t cs u hhas hpre
      exact absurd (hw.symm.trans hv) (by simp)
  | some w =>
    obtain ⟨hhas, hpre⟩ := of_longestMatch t cs w hw
    have hhas' := hhas
    rw [← h w hpre] at hhas'
    obtain ⟨u, hu, hle⟩ := exists_longestMatch t' cs w hhas' hpre
    obtain ⟨huhas, hupre⟩ := of_longestMatch t' cs u hu
    rw [h u hupre] at huhas
    -- neither of the two is longer than the other
    obtain ⟨v, hv, hle'⟩ := exists_longestMatch t cs u huhas hupre
    obtain rfl : w = v := Option.some.inj (hw.symm.trans hv)
    have heq : u = w := (List.prefix_of_prefix_length_le hupre hpre hle').eq_of_length
      (Nat.le_antisymm hle' hle)
    rw [hu, heq]

namespace Lexeme

variable {operators operators' : OperatorTrie}

theorem first_congr {c : Char} {cs : List Char}
    (h : operators'.match? (c :: cs) = operators.match? (c :: cs)) :
    first operators' c cs = first operators c cs := by
  unfold first
  rw [h]

/-- A text is cut into the same pieces if the same operators are found wherever one may stand. -/
theorem split_congr {cs : List Char}
    (h : ∀ rest, rest <:+ cs → operators'.match? rest = operators.match? rest) (skip : Nat) :
    split operators' skip cs = split operators skip cs := by
  induction cs generalizing skip with
  | nil => rfl
  | cons c cs ih =>
    have hbehind := ih fun rest hrest => h rest (hrest.trans (List.suffix_cons c cs))
    cases skip with
    | succ skip => exact hbehind skip
    | zero =>
      rw [split, split, first_congr (h _ List.suffix_rfl), hbehind]

end Lexeme

/-- Operators that stand nowhere in a text do not matter to its tokens, nor to its problems. -/
theorem Token.ofText_of_foreign {ops ops' : List String} {text : String}
    (h : ∀ op : String, op.toList <:+: text.toList → (op ∈ ops' ↔ op ∈ ops)) (limits : Limits) :
    ofText (.ofList ops') limits text = ofText (.ofList ops) limits text := by
  have hmatch : ∀ rest, rest <:+ text.toList →
      (OperatorTrie.ofList ops').match? rest = (OperatorTrie.ofList ops).match? rest := by
    intro rest hrest
    refine Trie.longestMatch_congr fun w hw => ?_
    have hin : (String.ofList w).toList <:+: text.toList := by
      rw [String.toList_ofList]
      exact hw.isInfix.trans hrest.isInfix
    rw [Bool.eq_iff_iff, OperatorTrie.has_ofList, OperatorTrie.has_ofList, h _ hin]
  unfold ofText Scan.ofText Lexeme.ofText
  rw [Lexeme.split_congr hmatch]

end Reckon
