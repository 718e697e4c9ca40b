import Reckon.Proofs.Outcome
import Reckon.Value.Template
/-
  What a template does with its value. It can be filled exactly when it is text with one directive
  in it that can convert the value, and then the text around the directive stays as it is
  (`Template.format_eq_ok_iff`). Two directives would need two values, and so would a star, which
  takes the value that its own directive needs.

  All that a character of a template can do is listed once (`Template.Cuts`). A star leaves its
  directive open, and an open directive ends in one more piece that is no text.
-/
namespace Reckon.Template

/-! ## What a character does -/

/-- Whether a place is inside a directive, so that more of it must follow. -/
def Place.isOpen : Place → Bool
  | .text | .percent => false
  | _ => true

/-- What a character can do in a place: nothing is complete yet, or one piece is. A star leaves its
directive open. -/
inductive Cuts (place : Place) : Cut → Prop
  | nothing (next : Place) (hopen : place.isOpen = true → next.isOpen = true) :
    Cuts place ([], next)
  | char (c : Char) (next : Place) (hopen : place.isOpen = false) : Cuts place ([.char c], next)
  | star (s : Star) (next : Place) (hopen : next.isOpen = true) : Cuts place ([.star s], next)
  | directive (style : Style) (conversion : Char) (index : Nat) :
    Cuts place ([.directive style conversion index], .text)
  | broken (f : Fault) : Cuts place ([.broken f], .text)

section

variable (place : Place) (style : Style) (c : Char) (index : Nat)

theorem cuts_size : Cuts place (cutSize style c index) := by
  unfold cutSize
  split
  · exact .nothing _ fun _ => rfl
  · exact .directive ..

theorem cuts_precision : Cuts place (cutPrecision style c index) := by
  unfold cutPrecision
  dsimp only
  split
  · split
    · exact .broken _
    · exact .nothing _ fun _ => rfl
  · exact cuts_size ..

theorem cuts_point : Cuts place (cutPoint style c index) := by
  unfold cutPoint
  split
  · exact .star _ _ rfl
  · exact cuts_precision ..

theorem cuts_behindWidth : Cuts place (cutBehindWidth style c index) := by
  unfold cutBehindWidth
  split
  · exact .nothing _ fun _ => rfl
  · exact cuts_size ..

theorem cuts_width : Cuts place (cutWidth style c index) := by
  unfold cutWidth
  dsimp only
  split
  · split
    · exact .broken _
    · exact .nothing _ fun _ => rfl
  · exact cuts_behindWidth ..

theorem cuts_flags : Cuts place (cutFlags style c index) := by
  unfold cutFlags
  cases style.withFlag? c with
  | some flagged => exact .nothing _ fun _ => rfl
  | none =>
    dsimp only
    split
    · exact .star _ _ rfl
    · exact cuts_width ..

theorem cuts_percent : Cuts .percent (cutPercent c index) := by
  unfold cutPercent
  split
  · exact .char _ _ rfl
  · split
    · exact .broken _
    · exact cuts_flags ..

theorem cuts_text : Cuts .text (cutText c) := by
  unfold cutText
  split
  · exact .nothing _ fun h => absurd h (by decide)
  · exact .char _ _ rfl

theorem cuts : Cuts place (place.cut c index) := by
  cases place with
  | text => exact cuts_text c
  | percent => exact cuts_percent c index
  | flags style => exact cuts_flags ..
  | width style => exact cuts_width ..
  | behindWidth style => exact cuts_behindWidth ..
  | point style => exact cuts_point ..
  | precision style => exact cuts_precision ..
  | size style => exact cuts_size ..
  | conversion style => exact .directive ..

end

/-! ## Pieces -/

/-- The characters of a text as pieces. -/
def chars (cs : List Char) : List Piece := cs.map .char

/-- A directive that has begun ends: it is complete or broken. -/
theorem exists_not_char {place : Place} (hopen : place.isOpen = true) (index : Nat)
    (cs : List Char) : ∃ p ∈ pieces place index cs, ∀ c, p ≠ .char c := by
  induction cs generalizing place index with
  | nil =>
    refine ⟨.broken .templateIncomplete, ?_, by simp⟩
    cases place with
    | text => exact absurd hopen (by decide)
    | _ => exact List.mem_singleton_self _
  | cons c cs ih =>
    rw [pieces]
    have hcut := cuts place c index
    generalize place.cut c index = cut at hcut
    cases hcut with
    | nothing next hnext => exact ih (hnext hopen) (index + 1)
    | char d next hclosed => exact absurd (hopen.symm.trans hclosed) (by decide)
    | star | directive | broken => exact ⟨_, List.mem_cons_self .., by simp⟩

/-- Behind a star there is more than text. -/
theorem exists_not_char_of_star {place : Place} {index : Nat} {cs : List Char} {s : Star}
    {before after : List Piece} (h : pieces place index cs = before ++ .star s :: after) :
    ∃ p ∈ after, ∀ c, p ≠ .char c := by
  induction cs generalizing place index before with
  | nil =>
    have hmem : Piece.star s ∈ place.atEnd := by
      rw [pieces] at h
      simp [h]
    cases place <;> exact absurd hmem (by simp [Place.atEnd])
  | cons c cs ih =>
    rw [pieces] at h
    have hcut := cuts place c index
    generalize place.cut c index = cut at hcut h
    cases hcut with
    | nothing next _ => exact ih h
    | star s' next hopen =>
      cases before with
      | nil =>
        obtain ⟨-, rfl⟩ := List.cons.inj h
        exact exists_not_char hopen ..
      | cons p before => exact ih (List.cons.inj h).2
    | char | directive | broken =>
      cases before with
      | nil => exact absurd (List.cons.inj h).1 (by simp)
      | cons p before => exact ih (List.cons.inj h).2

/-! ## Filling -/

variable {v : Value}

theorem fill_chars (taken : Bool) (cs : List Char) (ps : List Piece) :
    fill v taken (chars cs ++ ps) = (fill v taken ps).map (cs ++ ·) := by
  induction cs with
  | nil =>
    show fill v taken ps = _
    cases fill v taken ps with
    | ok | error => rfl
  | cons c cs ih =>
    have hcons : fill v taken (chars (c :: cs) ++ ps)
        = (fill v taken (chars cs ++ ps)).map (c :: ·) := rfl
    rw [hcons, ih]
    cases fill v taken ps with
    | ok | error => rfl

/-- Once the value is taken, there can only be text. -/
theorem eq_chars_of_fill {ps : List Piece} {cs : List Char} (h : fill v true ps = .ok cs) :
    ps = chars cs := by
  induction ps generalizing cs with
  | nil =>
    obtain rfl := Except.ok.inj h
    rfl
  | cons p ps ih =>
    cases p with
    | char c =>
      obtain ⟨rest, hrest, rfl⟩ := exists_of_map_eq_ok h
      rw [ih hrest]
      rfl
    | star | directive | broken => exact absurd h (by simp [fill])

/-- The value is taken once, by a star or by a directive that can convert it. -/
theorem of_fill {ps : List Piece} {cs : List Char} (h : fill v false ps = .ok cs) :
    (∃ before s after, ps = chars before ++ .star s :: chars after)
      ∨ ∃ before style conversion index after form middle,
        ps = chars before ++ .directive style conversion index :: chars after
          ∧ convert style conversion index v = .ok form ∧ style.align form = .ok middle
          ∧ cs = before ++ middle ++ after := by
  induction ps generalizing cs with
  | nil => exact absurd h (by simp [fill])
  | cons p ps ih =>
    cases p with
    | char c =>
      obtain ⟨rest, hrest, rfl⟩ := exists_of_map_eq_ok h
      obtain ⟨before, s, after, rfl⟩ | ⟨before, style, conversion, index, after, form, middle, rfl,
        hconvert, halign, rfl⟩ := ih hrest
      · exact Or.inl ⟨c :: before, s, after, rfl⟩
      · exact Or.inr ⟨c :: before, style, conversion, index, after, form, middle, rfl, hconvert,
          halign, rfl⟩
    | star s =>
      obtain ⟨_, -, hrest⟩ := exists_of_bind_eq_ok h
      exact Or.inl ⟨[], s, cs, congrArg _ (eq_chars_of_fill hrest)⟩
    | directive style conversion index =>
      obtain ⟨form, hconvert, h⟩ := exists_of_bind_eq_ok h
      obtain ⟨middle, halign, h⟩ := exists_of_bind_eq_ok h
      obtain ⟨after, hafter, h⟩ := exists_of_bind_eq_ok h
      refine Or.inr ⟨[], style, conversion, index, after, form, middle, ?_, hconvert, halign,
        (Except.ok.inj h).symm⟩
      exact congrArg _ (eq_chars_of_fill hafter)
    | broken f => exact absurd h (by simp [fill])

theorem fill_directive {style : Style} {conversion : Char} {index : Nat} {form : Form}
    {middle : List Char} (hconvert : convert style conversion index v = .ok form)
    (halign : style.align form = .ok middle) (after : List Char) :
    fill v false (.directive style conversion index :: chars after) = .ok (middle ++ after) := by
  have hafter : fill v true (chars after) = .ok after := by
    have hchars := fill_chars (v := v) true after []
    rw [List.append_nil] at hchars
    exact hchars.trans (congrArg Except.ok (List.append_nil after))
  rw [fill, if_neg Bool.false_ne_true, hconvert]
  show (style.align form >>= fun cs => fill v true (chars after) >>= fun rest => _) = _
  rw [halign]
  show (fill v true (chars after) >>= fun rest => _) = _
  rw [hafter]
  rfl

/-- A template is filled with a value exactly when there is only text around one directive in it,
which can convert the value. The text stays, and the converted value comes in between. -/
theorem format_eq_ok_iff (template : String) (v : Value) (text : String) :
    format template v = .ok text ↔
      ∃ before style conversion index after form middle,
        pieces .text 0 template.toList
            = chars before ++ .directive style conversion index :: chars after
          ∧ convert style conversion index v = .ok form ∧ style.align form = .ok middle
          ∧ text = String.ofList (before ++ middle ++ after) := by
  constructor
  · intro h
    obtain ⟨cs, hfill, rfl⟩ := exists_of_map_eq_ok h
    obtain ⟨before, s, after, hpieces⟩ | ⟨before, style, conversion, index, after, form, middle,
      hpieces, hconvert, halign, rfl⟩ := of_fill hfill
    · obtain ⟨p, hp, hne⟩ := exists_not_char_of_star hpieces
      obtain ⟨c, -, hc⟩ := List.mem_map.1 hp
      exact absurd hc.symm (hne c)
    · exact ⟨before, style, conversion, index, after, form, middle, hpieces, hconvert, halign,
        rfl⟩
  · rintro ⟨before, style, conversion, index, after, form, middle, hpieces, hconvert, halign, rfl⟩
    rw [format, hpieces, fill_chars, fill_directive hconvert halign after, List.append_assoc]
    rfl

/-- A sign and zeros in front of a number, between percent signs that stand for themselves. -/
example : (format "%%%+06.1f%%" (.int 2)).toOption = some "%+002.0%" := by decide +kernel

end Reckon.Template
