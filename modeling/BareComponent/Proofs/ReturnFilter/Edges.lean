import BareComponent.Proofs.ReturnFilter.Twice

/-! # The edges of joined pieces

A comma is no white space, so the blanks that joined pieces begin with are those of the first piece
and the blanks that they end with are those of the last one.
-/

namespace BareComponent.Glyph

open Text ReturnFilter

variable {front glyphs behind : List Glyph}

/-- The blanks that some glyphs begin with end at the first glyph that is no blank. -/
theorem takeWhile_eq_nil (dark : ∀ glyph ∈ glyphs.head?, glyph.isBlank = false) :
    glyphs.takeWhile isBlank = [] := by
  cases glyphs with
  | nil => rfl
  | cons glyph glyphs => exact List.takeWhile_cons_of_neg (by simp [dark glyph rfl])

theorem head?_dropWhile (glyphs : List Glyph) :
    ∀ glyph ∈ (glyphs.dropWhile isBlank).head?, glyph.isBlank = false := by
  intro glyph first
  have stops := List.head?_dropWhile_not isBlank glyphs
  rw [Option.mem_def.mp first] at stops
  simpa using stops

/-- Trimmed glyphs begin with none that is a blank. -/
theorem head?_trim (glyphs : List Glyph) :
    ∀ glyph ∈ (trim glyphs).head?, glyph.isBlank = false := by
  intro glyph first
  obtain ⟨rest, shape⟩ := List.head?_eq_some_iff.mp first
  refine head?_dropWhile glyphs glyph ?_
  rw [← List.rdropWhile_append_rtakeWhile (p := isBlank) (l := glyphs.dropWhile isBlank), ← trim,
    shape]
  rfl

/-- Trimmed glyphs end with none that is a blank. -/
theorem head?_reverse_trim (glyphs : List Glyph) :
    ∀ glyph ∈ (trim glyphs).reverse.head?, glyph.isBlank = false := by
  rw [trim, List.rdropWhile, List.reverse_reverse]
  exact head?_dropWhile _

/-- Blanks in front of what begins with none are the blanks that the whole begins with. -/
theorem takeWhile_append_dark (blank : ∀ glyph ∈ front, glyph.isBlank = true)
    (dark : ∀ glyph ∈ glyphs.head?, glyph.isBlank = false) :
    (front ++ glyphs).takeWhile isBlank = front := by
  rw [List.takeWhile_append_of_pos blank, takeWhile_eq_nil dark, List.append_nil]

theorem rtakeWhile_eq (glyphs : List Glyph) :
    glyphs.rtakeWhile isBlank = (glyphs.reverse.takeWhile isBlank).reverse := rfl

/-- Joined pieces read backwards are the pieces read backwards, from the last to the first. -/
theorem reverse_join (pieces : List (List Glyph)) :
    (join pieces).reverse = join (pieces.reverse.map List.reverse) := by
  have behind (piece last : List Glyph) (others : List (List Glyph)) :
      join (others ++ [last] ++ [piece]) = join (others ++ [last]) ++ comma :: piece := by
    induction others with
    | nil => rfl
    | cons other others ih =>
      obtain ⟨next, rest, shape⟩ := List.exists_cons_of_ne_nil (l := others ++ [last]) (by simp)
      rw [shape, List.cons_append] at ih
      rw [List.cons_append, List.cons_append, shape, List.cons_append, join, join, ih]
      simp
  induction pieces with
  | nil => rfl
  | cons piece pieces ih =>
    cases pieces with
    | nil => rfl
    | cons next pieces =>
      rw [join, List.reverse_append, List.reverse_cons, ih]
      simp only [List.reverse_cons, List.map_append, List.map_cons, List.map_nil]
      rw [behind]
      simp

theorem takeWhile_join (piece : List Glyph) (pieces : List (List Glyph)) :
    (join (piece :: pieces)).takeWhile isBlank = piece.takeWhile isBlank := by
  cases pieces with
  | nil => rfl
  | cons next pieces =>
    have dark : (comma :: join (next :: pieces)).takeWhile isBlank = [] :=
      List.takeWhile_cons_of_neg (by decide)
    rw [join, List.takeWhile_append, dark]
    split
    · next whole => rw [List.append_nil, (List.takeWhile_prefix isBlank).eq_of_length whole]
    · rfl

theorem rtakeWhile_join (pieces : List (List Glyph)) (piece : List Glyph) :
    (join (pieces ++ [piece])).rtakeWhile isBlank = piece.rtakeWhile isBlank := by
  rw [rtakeWhile_eq, reverse_join, List.reverse_append, List.reverse_singleton,
    List.singleton_append, List.map_cons, takeWhile_join, rtakeWhile_eq]

/-- What stands behind the last piece stands behind the joined pieces. -/
theorem join_concat_append (pieces : List (List Glyph)) (piece behind : List Glyph) :
    join (pieces ++ [piece ++ behind]) = join (pieces ++ [piece]) ++ behind := by
  induction pieces with
  | nil => rfl
  | cons first pieces ih =>
    obtain ⟨next, rest, shape⟩ :=
      List.exists_cons_of_ne_nil (l := pieces ++ [piece ++ behind]) (by simp)
    obtain ⟨other, others, otherShape⟩ :=
      List.exists_cons_of_ne_nil (l := pieces ++ [piece]) (by simp)
    rw [List.cons_append, List.cons_append, shape, otherShape, join, join, ← shape, ih,
      otherShape]
    simp

section Padded

variable (blank : ∀ glyph ∈ front, glyph.isBlank = true)
  (blankBehind : ∀ glyph ∈ behind, glyph.isBlank = true)
include blank blankBehind

/-- The blanks around what has none at its ends are those at the edges of the whole. -/
theorem edges_padded (nonempty : glyphs ≠ []) (dark : ∀ glyph ∈ glyphs.head?, glyph.isBlank = false)
    (darkBehind : ∀ glyph ∈ glyphs.reverse.head?, glyph.isBlank = false) :
    (front ++ glyphs ++ behind).takeWhile isBlank = front ∧
      (front ++ glyphs ++ behind).rtakeWhile isBlank = behind := by
  have first : (glyphs ++ behind).head? = glyphs.head? := List.head?_append_of_ne_nil _ nonempty
  have last : (glyphs.reverse ++ front.reverse).head? = glyphs.reverse.head? :=
    List.head?_append_of_ne_nil _ (by simpa using nonempty)
  constructor
  · rw [List.append_assoc]
    exact takeWhile_append_dark blank (first ▸ dark)
  · have backwards : ∀ glyph ∈ behind.reverse, glyph.isBlank = true := by simpa using blankBehind
    rw [rtakeWhile_eq, List.reverse_append, List.reverse_append,
      takeWhile_append_dark backwards (last ▸ darkBehind), List.reverse_reverse]

end Padded

theorem trim_eq_self (dark : ∀ glyph ∈ glyphs.head?, glyph.isBlank = false)
    (darkBehind : ∀ glyph ∈ glyphs.reverse.head?, glyph.isBlank = false) :
    trim glyphs = glyphs := by
  have kept {glyphs : List Glyph} (dark : ∀ glyph ∈ glyphs.head?, glyph.isBlank = false) :
      glyphs.dropWhile isBlank = glyphs := by
    have split := List.takeWhile_append_dropWhile (p := isBlank) (l := glyphs)
    rwa [takeWhile_eq_nil dark, List.nil_append] at split
  rw [trim, kept dark, List.rdropWhile, kept darkBehind, List.reverse_reverse]

/-- What is not all blank is not trimmed to nothing. -/
theorem trim_ne_nil (dark : weight glyphs ≠ 0) : trim glyphs ≠ [] := by
  intro nothing
  rw [← weight_trim, nothing] at dark
  exact dark rfl

theorem weight_ne_zero (nonempty : glyphs ≠ [])
    (dark : ∀ glyph ∈ glyphs.head?, glyph.isBlank = false) : weight glyphs ≠ 0 := by
  obtain ⟨glyph, rest, rfl⟩ := List.exists_cons_of_ne_nil nonempty
  intro light
  have blank := weight_eq_zero.mp light glyph List.mem_cons_self
  rw [dark glyph rfl] at blank
  contradiction

end BareComponent.Glyph
