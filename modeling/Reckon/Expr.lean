/-
  Expression trees. Literals keep their text, so a tree is independent of what numbers are.
  Every node has the position of the token it comes from; two trees are the same expression
  when they agree in everything but positions. A node of a kind that the library does not know
  can be part of a tree, too; it counts as a leaf.
-/
namespace Reckon

/-- An expression tree. -/
inductive Expr where
  | constant (text : String) (position : Int)
  | var (name : String) (position : Int)
  | unary (operator : String) (operand : Expr) (position : Int)
  | binary (operator : String) (left right : Expr) (position : Int)
  | call (name : String) (args : List Expr) (position : Int)
  | unknown (type : String) (position : Int)
  deriving Repr, Inhabited

namespace Expr

/-- Induction over trees: for a call the property may be used of each argument. -/
theorem induction {P : Expr → Prop}
    (constant : ∀ text position, P (.constant text position))
    (var : ∀ name position, P (.var name position))
    (unary : ∀ operator operand position, P operand → P (.unary operator operand position))
    (binary : ∀ operator left right position, P left → P right →
      P (.binary operator left right position))
    (call : ∀ name args position, (∀ a ∈ args, P a) → P (.call name args position))
    (unknown : ∀ type position, P (.unknown type position)) (e : Expr) : P e :=
  match e with
  | .constant t p => constant t p
  | .var n p => var n p
  | .unary o e p => unary o e p (induction constant var unary binary call unknown e)
  | .binary o l r p =>
    binary o l r p (induction constant var unary binary call unknown l)
      (induction constant var unary binary call unknown r)
  | .call n args p =>
    call n args p fun a _ => induction constant var unary binary call unknown a
  | .unknown t p => unknown t p

/-- The position of a node. -/
def position : Expr → Int
  | constant _ p => p
  | var _ p => p
  | unary _ _ p => p
  | binary _ _ _ p => p
  | call _ _ p => p
  | unknown _ p => p

mutual
/-- The number of nodes. -/
def size : Expr → Nat
  | constant .. => 1
  | var .. => 1
  | unary _ e _ => 1 + e.size
  | binary _ l r _ => 1 + l.size + r.size
  | call _ args _ => 1 + sizeAll args
  | unknown .. => 1

def sizeAll : List Expr → Nat
  | [] => 0
  | e :: es => e.size + sizeAll es
end

mutual
/-- The number of nodes on a longest path. -/
def depth : Expr → Nat
  | constant .. => 1
  | var .. => 1
  | unary _ e _ => 1 + e.depth
  | binary _ l r _ => 1 + max l.depth r.depth
  | call _ args _ => 1 + depthAll args
  | unknown .. => 1

def depthAll : List Expr → Nat
  | [] => 0
  | e :: es => max e.depth (depthAll es)
end

mutual
/-- The tree with all positions forgotten. -/
def bare : Expr → Expr
  | constant t _ => constant t 0
  | var n _ => var n 0
  | unary o e _ => unary o e.bare 0
  | binary o l r _ => binary o l.bare r.bare 0
  | call n args _ => call n (bareAll args) 0
  | unknown t _ => unknown t 0

def bareAll : List Expr → List Expr
  | [] => []
  | e :: es => e.bare :: bareAll es
end

/-- Agreement in everything but positions. -/
def Same (e f : Expr) : Prop := e.bare = f.bare

mutual
def decEq : (e f : Expr) → Decidable (e = f)
  | constant t p, constant t' p' =>
    if h : t = t' ∧ p = p' then isTrue (by rw [h.1, h.2])
    else isFalse fun e => h (by simpa using e)
  | var n p, var n' p' =>
    if h : n = n' ∧ p = p' then isTrue (by rw [h.1, h.2])
    else isFalse fun e => h (by simpa using e)
  | unary o e p, unary o' e' p' =>
    match decEq e e' with
    | isFalse h => isFalse fun eq => h (by simp at eq; exact eq.2.1)
    | isTrue he =>
      if h : o = o' ∧ p = p' then isTrue (by rw [h.1, h.2, he])
      else isFalse fun eq => h (by simp at eq; exact ⟨eq.1, eq.2.2⟩)
  | binary o l r p, binary o' l' r' p' =>
    match decEq l l', decEq r r' with
    | isFalse h, _ => isFalse fun eq => h (by simp at eq; exact eq.2.1)
    | _, isFalse h => isFalse fun eq => h (by simp at eq; exact eq.2.2.1)
    | isTrue hl, isTrue hr =>
      if h : o = o' ∧ p = p' then isTrue (by rw [h.1, h.2, hl, hr])
      else isFalse fun eq => h (by simp at eq; exact ⟨eq.1, eq.2.2.2⟩)
  | call n as p, call n' as' p' =>
    match decEqAll as as' with
    | isFalse h => isFalse fun eq => h (by simp at eq; exact eq.2.1)
    | isTrue ha =>
      if h : n = n' ∧ p = p' then isTrue (by rw [h.1, h.2, ha])
      else isFalse fun eq => h (by simp at eq; exact ⟨eq.1, eq.2.2⟩)
  | unknown t p, unknown t' p' =>
    if h : t = t' ∧ p = p' then isTrue (by rw [h.1, h.2])
    else isFalse fun e => h (by simpa using e)
  | constant .., var .. | constant .., unary .. | constant .., binary ..
  | constant .., call .. | constant .., unknown ..
  | var .., constant .. | var .., unary .. | var .., binary ..
  | var .., call .. | var .., unknown ..
  | unary .., constant .. | unary .., var .. | unary .., binary ..
  | unary .., call .. | unary .., unknown ..
  | binary .., constant .. | binary .., var .. | binary .., unary ..
  | binary .., call .. | binary .., unknown ..
  | call .., constant .. | call .., var .. | call .., unary ..
  | call .., binary .. | call .., unknown ..
  | unknown .., constant .. | unknown .., var .. | unknown .., unary ..
  | unknown .., binary .. | unknown .., call .. => isFalse nofun

def decEqAll : (es fs : List Expr) → Decidable (es = fs)
  | [], [] => isTrue rfl
  | [], _ :: _ => isFalse nofun
  | _ :: _, [] => isFalse nofun
  | e :: es, f :: fs =>
    match decEq e f, decEqAll es fs with
    | isTrue h, isTrue h' => isTrue (by rw [h, h'])
    | isFalse h, _ => isFalse fun eq => h (by simp at eq; exact eq.1)
    | _, isFalse h => isFalse fun eq => h (by simp at eq; exact eq.2)
end

instance : DecidableEq Expr := decEq

instance (e f : Expr) : Decidable (Same e f) := inferInstanceAs (Decidable (e.bare = f.bare))

theorem bareAll_eq_map (es : List Expr) : bareAll es = es.map bare := by
  induction es with
  | nil => rfl
  | cons e es ih => simp [bareAll, ih]

theorem bare_bare (e : Expr) : e.bare.bare = e.bare := by
  induction e using Expr.induction with
  | constant => rfl
  | var => rfl
  | unary o e p ih => simp [bare, ih]
  | binary o l r p ihl ihr => simp [bare, ihl, ihr]
  | call n args p ih =>
    simp only [bare, bareAll_eq_map, List.map_map]
    congr 1
    exact List.map_congr_left fun a ha => ih a ha
  | unknown => rfl

end Expr

end Reckon
