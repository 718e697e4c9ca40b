/-
  Tables from names to values, as lists of entries in the order in which their names were first
  entered. Each operation is described by what it does to look-ups and by where the entries of its
  result come from.
-/
namespace Reckon

/-- Names with values. -/
abbrev Table (α : Type) := List (String × α)

namespace Table

variable {α : Type}

/-- The value of a name. -/
def find? : Table α → String → Option α
  | [], _ => none
  | (k, v) :: t, name => if k = name then some v else find? t name

/-- Gives a name a value: in place if it has one, as a last entry otherwise. -/
def insert : Table α → String → α → Table α
  | [], name, value => [(name, value)]
  | (k, v) :: t, name, value => if k = name then (k, value) :: t else (k, v) :: insert t name value

/-- Takes a name out. -/
def erase : Table α → String → Table α
  | [], _ => []
  | (k, v) :: t, name => if k = name then erase t name else (k, v) :: erase t name

/-- Enters all entries of a table, later ones over earlier ones. -/
def insertAll (t new : Table α) : Table α := new.foldl (fun t e => insert t e.1 e.2) t

/-- A table with each name once: a later entry gives the value. -/
def ofEntries (entries : List (String × α)) : Table α := insertAll [] entries

def contains (t : Table α) (name : String) : Bool := (find? t name).isSome

/-- A value that is found is in an entry. -/
theorem mem_of_find? {t : Table α} {name : String} {v : α}
    (h : t.find? name = some v) : (name, v) ∈ t := by
  induction t with
  | nil => exact absurd h (by simp [find?])
  | cons e t ih =>
    obtain ⟨k, w⟩ := e
    by_cases hk : k = name
    · rw [find?, if_pos hk] at h
      rw [hk, Option.some.inj h]
      exact List.mem_cons_self ..
    · rw [find?, if_neg hk] at h
      exact List.mem_cons_of_mem _ (ih h)

theorem find?_insert (t : Table α) (name other : String) (value : α) :
    find? (insert t name value) other = if name = other then some value else find? t other := by
  induction t with
  | nil => simp [insert, find?]
  | cons e t ih =>
    obtain ⟨k, v⟩ := e
    by_cases hk : k = name
    · subst hk
      by_cases ho : k = other <;> simp [insert, find?, ho]
    · by_cases ho : k = other
      · subst ho
        have : name ≠ k := fun h => hk h.symm
        simp [insert, find?, hk, this]
      · simp [insert, find?, hk, ho, ih]

theorem find?_erase (t : Table α) (name other : String) :
    find? (erase t name) other = if name = other then none else find? t other := by
  induction t with
  | nil => simp [erase, find?]
  | cons e t ih =>
    obtain ⟨k, v⟩ := e
    by_cases hk : k = name
    · subst hk
      by_cases ho : k = other
      · subst ho; simpa [erase] using ih
      · simp [erase, find?, ho, ih]
    · by_cases ho : k = other
      · subst ho
        have : name ≠ k := fun h => hk h.symm
        simp [erase, find?, hk, this]
      · simp [erase, find?, hk, ho, ih]

/-! ## Entries -/

theorem mem_insert_self {t : Table α} {name : String} {v : α} : (name, v) ∈ t.insert name v := by
  induction t with
  | nil => exact List.mem_cons_self ..
  | cons e t ih =>
    obtain ⟨k, w⟩ := e
    rw [insert]
    by_cases hk : k = name
    · rw [if_pos hk, hk]
      exact List.mem_cons_self ..
    · rw [if_neg hk]
      exact List.mem_cons_of_mem _ ih

/-- An entry of a table with a name entered is that of the name or an old one. -/
theorem of_mem_insert {t : Table α} {name : String} {v : α} {e : String × α}
    (h : e ∈ t.insert name v) : e = (name, v) ∨ e ∈ t := by
  induction t with
  | nil => exact Or.inl (List.mem_singleton.1 h)
  | cons x t ih =>
    obtain ⟨k, w⟩ := x
    rw [insert] at h
    by_cases hk : k = name
    · rw [if_pos hk, hk] at h
      exact (List.mem_cons.1 h).imp id (List.mem_cons_of_mem _)
    · rw [if_neg hk] at h
      rcases List.mem_cons.1 h with rfl | h
      · exact Or.inr (List.mem_cons_self ..)
      · exact (ih h).imp id (List.mem_cons_of_mem _)

theorem of_mem_insertAll {t : Table α} {entries : List (String × α)} {e : String × α}
    (h : e ∈ t.insertAll entries) : e ∈ entries ∨ e ∈ t := by
  induction entries generalizing t with
  | nil => exact Or.inr h
  | cons x entries ih =>
    rcases ih h with hmem | hmem
    · exact Or.inl (List.mem_cons_of_mem _ hmem)
    · rcases of_mem_insert hmem with rfl | hmem
      · exact Or.inl (List.mem_cons_self ..)
      · exact Or.inr hmem

theorem mem_of_mem_ofEntries {entries : List (String × α)} {e : String × α}
    (h : e ∈ ofEntries entries) : e ∈ entries := (of_mem_insertAll h).resolve_right (by simp)

end Table

end Reckon
