import Reckon.Datum.Collection
/-
  Operators and their longest match. The operators are kept in a trie: a node stands for one
  character, with the node for a next character below it and the alternatives beside it. The
  view of a trie is the set of its words, `Trie.has`: an insertion adds one word, and a match is
  the longest word that the text starts with.
-/
namespace Reckon

/-- A trie of non-empty words. `ends` says that a word ends at the node. -/
inductive Trie where
  | empty
  | node (char : Char) (ends : Bool) (below beside : Trie)
  deriving DecidableEq, Repr, Inhabited

namespace Trie

/-- The trie of one word. -/
def single : List Char → Trie
  | [] => empty
  | c :: cs => node c cs.isEmpty (single cs) empty

/-- Adds a word. -/
def insert : Trie → List Char → Trie
  | t, [] => t
  | empty, c :: cs => single (c :: cs)
  | node d ends below beside, c :: cs =>
    if c = d then node d (ends || cs.isEmpty) (below.insert cs) beside
    else node d ends below (beside.insert (c :: cs))

/-- Whether a word is in the trie. -/
def has : Trie → List Char → Bool
  | empty, _ => false
  | node .., [] => false
  | node d ends below beside, c :: cs =>
    if c = d then (ends && cs.isEmpty) || below.has cs else beside.has (c :: cs)

/-- The longest word of the trie that a text starts with. -/
def longestMatch : Trie → List Char → Option (List Char)
  | empty, _ => none
  | node .., [] => none
  | node d ends below beside, c :: cs =>
    if c = d then
      match below.longestMatch cs with
      | some w => some (d :: w)
      | none => if ends then some [d] else none
    else beside.longestMatch (c :: cs)

theorem has_nil (t : Trie) : t.has [] = false := by cases t <;> rfl

theorem has_single (w v : List Char) (hw : w ≠ []) : (single w).has v = decide (v = w) := by
  induction w generalizing v with
  | nil => exact absurd rfl hw
  | cons c cs ih =>
    cases v with
    | nil => simp [has_nil]
    | cons d ds =>
      by_cases hd : d = c
      · subst hd
        cases cs with
        | nil => cases ds <;> simp [single, has]
        | cons x xs =>
          have hs : single (d :: x :: xs) = node d false (single (x :: xs)) empty := rfl
          simp [hs, has, ih]
      · simp [single, has, hd]

/-- Adding a word adds that word and no other. -/
theorem has_insert (t : Trie) (w v : List Char) (hw : w ≠ []) :
    (t.insert w).has v = (t.has v || decide (v = w)) := by
  induction t generalizing w v with
  | empty =>
    cases w with
    | nil => exact absurd rfl hw
    | cons c cs => simp [insert, has_single, has]
  | node d ends below beside ihb ihs =>
    cases w with
    | nil => exact absurd rfl hw
    | cons c cs =>
      cases v with
      | nil => simp [has_nil]
      | cons x xs =>
        by_cases hc : c = d
        · subst hc
          by_cases hx : x = c
          · subst hx
            cases cs with
            | nil => cases xs <;> simp [insert, has]
            | cons y ys => simp [insert, has, ihb, Bool.or_assoc]
          · simp [insert, has, hx]
        · by_cases hx : x = d
          · subst hx
            have : ¬ x = c := fun h => hc h.symm
            simp [insert, has, hc, this]
          · simp [insert, has, hc, hx, ihs]

/-- What a match finds is a word of the trie, and the text starts with it. -/
theorem of_longestMatch (t : Trie) (cs w : List Char) (h : t.longestMatch cs = some w) :
    t.has w = true ∧ w <+: cs := by
  induction t generalizing cs w with
  | empty => simp [longestMatch] at h
  | node d ends below beside ihb ihs =>
    cases cs with
    | nil => simp [longestMatch] at h
    | cons c cs =>
      by_cases hc : c = d
      · subst hc
        cases hb : below.longestMatch cs with
        | some u =>
          obtain ⟨hu, hp⟩ := ihb cs u hb
          simp only [longestMatch, if_true, hb, Option.some.injEq] at h
          subst h
          exact ⟨by simp [has, hu], by simpa using hp⟩
        | none =>
          simp only [longestMatch, if_true, hb] at h
          cases ends with
          | false => simp at h
          | true =>
            simp at h
            subst h
            exact ⟨by simp [has], by simp⟩
      · simp only [longestMatch, hc, if_false] at h
        obtain ⟨hu, hp⟩ := ihs (c :: cs) w h
        refine ⟨?_, hp⟩
        cases w with
        | nil => simp [has_nil] at hu
        | cons x xs =>
          have hx : x = c := by simpa using (List.cons_prefix_cons.1 hp).1
          subst hx
          simpa [has, hc] using hu

/-- If the text starts with a word of the trie, a match finds one that is no shorter. -/
theorem exists_longestMatch (t : Trie) (cs w : List Char) (hw : t.has w = true) (hp : w <+: cs) :
    ∃ u, t.longestMatch cs = some u ∧ w.length ≤ u.length := by
  induction t generalizing cs w with
  | empty => simp [has] at hw
  | node d ends below beside ihb ihs =>
    cases w with
    | nil => simp [has_nil] at hw
    | cons x xs =>
      cases cs with
      | nil => simp at hp
      | cons c cs =>
        obtain ⟨hx, htail⟩ := List.cons_prefix_cons.1 hp
        subst hx
        by_cases hc : x = d
        · subst hc
          simp only [has, if_true, Bool.or_eq_true, Bool.and_eq_true, List.isEmpty_iff] at hw
          rcases hw with ⟨he, hn⟩ | hb
          · subst hn
            cases hb : below.longestMatch cs with
            | some u => exact ⟨x :: u, by simp [longestMatch, hb], by simp⟩
            | none => exact ⟨[x], by simp [longestMatch, hb, he], by simp⟩
          · obtain ⟨u, hu, hl⟩ := ihb cs xs hb htail
            exact ⟨x :: u, by simp [longestMatch, hu], by simpa using hl⟩
        · simp only [has, hc, if_false] at hw
          obtain ⟨u, hu, hl⟩ := ihs (x :: cs) (x :: xs) hw hp
          exact ⟨u, by simp [longestMatch, hc, hu], hl⟩

end Trie

/-- A set of operators in the order in which they were added, with their trie. -/
structure OperatorTrie where
  root : Trie
  operators : List String
  /-- The length of the longest operator. -/
  longest : Nat
  deriving DecidableEq, Repr

namespace OperatorTrie

def empty : OperatorTrie := ⟨.empty, [], 0⟩

/-- Adds an operator; one that is there already stays in its place. -/
def insert (t : OperatorTrie) (operator : String) : OperatorTrie where
  root := t.root.insert operator.toList
  operators := if operator ∈ t.operators then t.operators else t.operators ++ [operator]
  longest := max t.longest operator.toList.length

/-- The operators of a list. -/
def ofList (operators : List String) : OperatorTrie := operators.foldl insert empty

/-- The longest operator at the start of a text. -/
def match? (t : OperatorTrie) (text : List Char) : Option (List Char) :=
  t.root.longestMatch text

/-- The characters that a match from `position` may look at: as many as the longest operator
has, up to the end. A position before the start counts back from the end of the text, and the
text then starts over. -/
def view (t : OperatorTrie) (text : List Char) (position : Int) : Except Fault (List Char) :=
  let stop := min (text.length : Int) (position + t.longest)
  if stop ≤ position then .ok []
  else if 0 ≤ position then .ok ((text.drop position.toNat).take t.longest)
  else if text.length < position.natAbs then .error .textIndex
  else
    .ok ((text.drop (text.length - position.natAbs) ++ text).take (stop - position).toNat)

/-- The longest operator at a position of a text. -/
def matchAt (t : OperatorTrie) (text : String) (position : Int) :
    Except Fault (Option String) :=
  (t.view text.toList position).map fun cs => (t.match? cs).map String.ofList

def contains (t : OperatorTrie) (operator : String) : Bool := t.operators.contains operator

end OperatorTrie

/-- Operators given as plain data: each must be a text of at least one character. -/
def Datum.operator? : Datum → Except Fault String
  | .str s => if s = "" then .error (.invalidOperator (Quoted.encode s)) else .ok s
  | d => .error (.invalidOperator d.text)

/-- Operators given as plain data, all of them valid. -/
def Datum.operators? (items : List Datum) : Except Fault (List String) :=
  items.mapM Datum.operator?

/-- The operators that are known unless others are given. -/
def defaultOperators : List String := ["+", "-", "*", "/", "%", "^"]

end Reckon
