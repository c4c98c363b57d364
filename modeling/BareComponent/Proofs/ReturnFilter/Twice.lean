import BareComponent.Proofs.ReturnFilter.Survivors

/-! # Filtering twice

In the mask that the filter cuts along with a script, the literals of what is kept are those of the
script with the surviving entries in them, and none of these is dropped by the same names. A second
run therefore changes nothing if what is kept has this mask. It may have another one: where the
blanks at the end of the last survivor are trimmed, a line comment can lose the newline that ends
it.
-/

namespace BareComponent.Glyph

open Text ReturnFilter

theorem trim_blank_append {front : List Glyph} (blank : ∀ glyph ∈ front, glyph.isBlank = true)
    (glyphs : List Glyph) : trim (front ++ glyphs) = trim glyphs := by
  rw [trim, List.dropWhile_append_of_pos blank, trim]

theorem trim_append_blank {behind : List Glyph} (blank : ∀ glyph ∈ behind, glyph.isBlank = true)
    (glyphs : List Glyph) : trim (glyphs ++ behind) = trim glyphs := by
  have nothing : ∀ glyph ∈ ([] : List Glyph), glyph.isBlank = true := by simp
  exact rdropWhile_dropWhile_padded nothing blank glyphs

theorem trim_dropWhile (glyphs : List Glyph) : trim (glyphs.dropWhile isBlank) = trim glyphs := by
  rw [trim, List.dropWhile_idempotent, trim]

theorem trim_rdropWhile (glyphs : List Glyph) :
    trim (glyphs.rdropWhile isBlank) = trim glyphs := by
  rw [← trim_append_blank (isBlank_rtakeWhile glyphs), List.rdropWhile_append_rtakeWhile]

/-- What trimming takes off are blanks at the two ends. -/
theorem exists_trim (glyphs : List Glyph) : ∃ front behind,
    glyphs = front ++ trim glyphs ++ behind ∧ (∀ glyph ∈ front, glyph.isBlank = true) ∧
      ∀ glyph ∈ behind, glyph.isBlank = true :=
  ⟨_, _, (takeWhile_append_trim glyphs).symm, isBlank_takeWhile glyphs, isBlank_rtakeWhile _⟩

theorem join_append_cons (front piece : List Glyph) (pieces : List (List Glyph)) :
    join ((front ++ piece) :: pieces) = front ++ join (piece :: pieces) := by
  cases pieces with
  | nil => rfl
  | cons next pieces => exact List.append_assoc ..

/-- What is trimmed at the front of joined pieces is trimmed at the front of the first one. -/
theorem dropWhile_join (piece : List Glyph) (pieces : List (List Glyph)) :
    (join (piece :: pieces)).dropWhile isBlank = join (piece.dropWhile isBlank :: pieces) := by
  have cut := join_append_cons (piece.takeWhile isBlank) (piece.dropWhile isBlank) pieces
  rw [List.takeWhile_append_dropWhile] at cut
  rw [cut, List.dropWhile_append_of_pos (isBlank_takeWhile piece)]
  cases pieces with
  | nil => exact List.dropWhile_idempotent _ _
  | cons next pieces =>
    have dark (rest : List Glyph) : (comma :: rest).dropWhile isBlank = comma :: rest :=
      List.dropWhile_cons_of_neg (by decide)
    rw [join, List.dropWhile_append, List.dropWhile_idempotent, dark]
    split
    · next nothing => rw [List.isEmpty_iff.mp nothing, List.nil_append]
    · rfl

theorem rdropWhile_append_comma (front behind : List Glyph) :
    (front ++ comma :: behind).rdropWhile isBlank =
      front ++ comma :: behind.rdropWhile isBlank := by
  have dark (rest : List Glyph) : (comma :: rest).dropWhile isBlank = comma :: rest :=
    List.dropWhile_cons_of_neg (by decide)
  have shape : (front ++ comma :: behind).reverse = behind.reverse ++ comma :: front.reverse := by
    simp
  rw [List.rdropWhile, List.rdropWhile, shape, List.dropWhile_append, dark]
  split
  · next nothing =>
    rw [List.isEmpty_iff.mp nothing]
    simp
  · simp

theorem exists_join_rdropWhile {pieces : List (List Glyph)} (nonempty : pieces ≠ [])
    {trail : List Glyph} (blank : ∀ glyph ∈ trail, glyph.isBlank = true) :
    ∃ others, (join pieces).rdropWhile isBlank ++ trail = join others ∧
      others.map trim = pieces.map trim := by
  induction pieces with
  | nil => exact absurd rfl nonempty
  | cons piece pieces ih =>
    cases pieces with
    | nil =>
      refine ⟨[piece.rdropWhile isBlank ++ trail], rfl, ?_⟩
      rw [List.map_singleton, List.map_singleton, trim_append_blank blank, trim_rdropWhile]
    | cons next pieces =>
      obtain ⟨others, joined, same⟩ := ih (List.cons_ne_nil _ _)
      obtain ⟨other, others, rfl⟩ := List.exists_cons_of_ne_nil (l := others)
        (by rintro rfl; simp at same)
      refine ⟨piece :: other :: others, ?_, congrArg (trim piece :: ·) same⟩
      rw [join, rdropWhile_append_comma, join, ← joined]
      simp

/-- Blanks around joined pieces are blanks around pieces. -/
theorem exists_join_trim {pieces : List (List Glyph)} (nonempty : pieces ≠ [])
    {lead trail : List Glyph} (blank : ∀ glyph ∈ lead, glyph.isBlank = true)
    (blankBehind : ∀ glyph ∈ trail, glyph.isBlank = true) :
    ∃ others, lead ++ trim (join pieces) ++ trail = join others ∧
      others.map trim = pieces.map trim := by
  obtain ⟨piece, pieces, rfl⟩ := List.exists_cons_of_ne_nil nonempty
  have someLeft : piece.dropWhile isBlank :: pieces ≠ [] := List.cons_ne_nil _ _
  obtain ⟨others, joined, same⟩ := exists_join_rdropWhile someLeft blankBehind
  obtain ⟨other, others, rfl⟩ := List.exists_cons_of_ne_nil (l := others)
    (by rintro rfl; simp at same)
  rw [List.map_cons, List.map_cons, List.cons.injEq] at same
  obtain ⟨first, same⟩ := same
  refine ⟨(lead ++ other) :: others, ?_, ?_⟩
  · rw [trim, dropWhile_join, join_append_cons, ← joined, List.append_assoc]
  · rw [List.map_cons, List.map_cons, trim_blank_append blank, first, trim_dropWhile, same]

end BareComponent.Glyph

namespace BareComponent.ReturnFilter

open Text Glyph

/-- An entry that is cut as one and where no name is left to drop. -/
structure Final (names : NameSet) (piece : List Glyph) : Prop where
  solid : Solid Byte.comma (Glyph.mask piece)
  unnamed : names.contains (keyOf (Glyph.mask piece)) = false
  settled : Settled names (Glyph.mask piece)

/-- What a run of the filter does to glyphs: it exchanges contents and leaves no name to drop. -/
structure Settles (names : NameSet) (glyphs kept : List Glyph) : Prop where
  alike : Alike (characters glyphs) (characters kept)
  settled : Settled names (Glyph.mask kept)

variable {names : NameSet}

section Padded

variable {front behind : List Glyph} (blank : ∀ glyph ∈ front, glyph.isBlank = true)
  (blankBehind : ∀ glyph ∈ behind, glyph.isBlank = true)
include blank blankBehind

/-- Blanks around an entry do not matter to how it is cut. -/
theorem solid_mask_padded (glyphs : List Glyph) :
    Solid Byte.comma (Glyph.mask (front ++ glyphs ++ behind)) ↔
      Solid Byte.comma (Glyph.mask glyphs) := by
  have lead := blank_characters blank
  have trail := blank_characters blankBehind
  rw [← encode_characters, characters_append, characters_append, Solid,
    balanced_padded lead trail, topLevelOffset?_padded lead trail (by decide) (by decide),
    Option.map_eq_none_iff, encode_characters, Solid]

/-- Blanks around an entry do not change its key. -/
theorem keyOf_mask_padded (glyphs : List Glyph) :
    keyOf (Glyph.mask (front ++ glyphs ++ behind)) = keyOf (Glyph.mask glyphs) := by
  rw [← encode_characters, characters_append, characters_append,
    keyOf_padded (blank_characters blank) (blank_characters blankBehind), encode_characters]

theorem settled_mask_padded (glyphs : List Glyph) :
    Settled names (Glyph.mask (front ++ glyphs ++ behind)) ↔
      Settled names (Glyph.mask glyphs) := by
  rw [← encode_characters, characters_append, characters_append,
    settled_padded (blank_characters blank) (blank_characters blankBehind), encode_characters]

end Padded

/-- Whether an entry is final does not depend on the blanks around it. -/
theorem final_trim_iff {piece : List Glyph} : Final names (trim piece) ↔ Final names piece := by
  obtain ⟨front, behind, split, blank, blankBehind⟩ := exists_trim piece
  have solid := solid_mask_padded blank blankBehind (trim piece)
  have key := keyOf_mask_padded blank blankBehind (trim piece)
  have settled : Settled names (Glyph.mask (front ++ trim piece ++ behind)) ↔ _ :=
    settled_mask_padded blank blankBehind (trim piece)
  rw [← split] at solid key settled
  constructor
  · rintro ⟨isSolid, unnamed, isSettled⟩
    exact ⟨solid.mpr isSolid, key ▸ unnamed, settled.mpr isSettled⟩
  · rintro ⟨isSolid, unnamed, isSettled⟩
    exact ⟨solid.mp isSolid, key ▸ unnamed, settled.mp isSettled⟩

theorem final_nil (identifiers : names.Identifiers) : Final names [] := by
  refine ⟨⟨balanced_nil, rfl⟩, contains_nil identifiers, ?_⟩
  exact (settled_iff (laid_blank blank_nil)).mpr (by simp)

section Content

variable {content : List Glyph} {pieces rewritten : List (List Glyph)}

private theorem rewritten_final (identifiers : names.Identifiers) (entries : Entries content pieces)
    (settles : List.Forall₂ (Settles names) (survivors names pieces) rewritten) :
    ∀ piece ∈ rewritten, Final names piece := by
  have survive : ∀ piece ∈ survivors names pieces,
      Solid Byte.comma (Glyph.mask piece) ∧ names.contains (keyOf (Glyph.mask piece)) = false := by
    intro piece member
    obtain ⟨inside, unnamed⟩ := List.mem_filter.mp member
    exact ⟨entries.solid piece inside, by simpa using unnamed⟩
  generalize survivors names pieces = kept at settles survive
  induction settles with
  | nil => simp
  | cons here _ ih =>
    obtain ⟨⟨solid, unnamed⟩, others⟩ := List.forall_mem_cons.mp survive
    rw [← encode_characters] at solid unnamed
    refine List.forall_mem_cons.mpr ⟨⟨?_, ?_, here.settled⟩, ih others⟩
    · rw [← encode_characters]
      exact here.alike.solid solid
    · rw [← encode_characters]
      exact here.alike.contains identifiers solid.1 unnamed

private theorem exists_final (identifiers : names.Identifiers) (entries : Entries content pieces)
    (settles : List.Forall₂ (Settles names) (survivors names pieces) rewritten) :
    ∃ others, Entries (keep content (join rewritten) (survivors names pieces = pieces)) others ∧
      ∀ piece ∈ others, Final names piece := by
  have final := rewritten_final identifiers entries settles
  by_cases complete : survivors names pieces = pieces
  · rw [keep, decide_eq_true complete, if_pos rfl]
    refine ⟨rewritten, ⟨?_, rfl, fun piece member => (final piece member).solid⟩, final⟩
    rintro rfl
    rw [complete, List.forall₂_nil_right_iff] at settles
    exact entries.nonempty settles
  · rw [keep, decide_eq_false complete, if_neg Bool.false_ne_true]
    obtain ⟨kept, nonempty, joined, keptFinal⟩ : ∃ kept : List (List Glyph), kept ≠ [] ∧
        join rewritten = join kept ∧ ∀ piece ∈ kept, Final names piece := by
      cases rewritten with
      | nil => exact ⟨[[]], by simp, rfl, by simpa using final_nil identifiers⟩
      | cons piece rewritten => exact ⟨_, List.cons_ne_nil _ _, rfl, final⟩
    obtain ⟨others, trimmed, same⟩ := exists_join_trim nonempty (isBlank_takeWhile content)
      (isBlank_rtakeWhile content)
    have othersFinal : ∀ piece ∈ others, Final names piece := by
      intro piece member
      have found := List.mem_map_of_mem (f := Glyph.trim) member
      rw [same] at found
      obtain ⟨other, inside, trimEq⟩ := List.mem_map.mp found
      rw [← final_trim_iff, ← trimEq, final_trim_iff]
      exact keptFinal other inside
    rw [joined]
    refine ⟨others, ⟨?_, trimmed, fun piece member => (othersFinal piece member).solid⟩,
      othersFinal⟩
    rintro rfl
    exact nonempty (by simpa using same.symm)

end Content

private theorem settledInside_of_kept (identifiers : names.Identifiers) {part other : Part Glyph}
    (kept : Kept names (Settles names) part other) :
    Balanced (Glyph.mask other.content) ∧ SettledInside names (Glyph.mask other.content) := by
  obtain ⟨-, pieces, rewritten, entries, settles, content⟩ := kept
  obtain ⟨others, otherEntries, final⟩ := exists_final identifiers entries settles
  rw [← content] at otherEntries
  constructor
  · rw [otherEntries.joined, mask_join]
    exact balanced_join (by decide) (by simpa using otherEntries.solid)
  · rw [otherEntries.settledInside_iff]
    exact fun piece member => ⟨(final piece member).unnamed, (final piece member).settled⟩

/-- What is kept of a text has its literals in the same gaps, and is alike. -/
theorem exchange_kept (identifiers : names.Identifiers) {tail : List Glyph}
    {parts others : List (Part Glyph)} (parted : Parted tail parts)
    (kept : List.Forall₂ (Kept names (Settles names)) parts others) :
    Alike (characters (weave tail parts)) (characters (weave tail others)) ∧
      Parted tail others := by
  have exchanged : List.Forall₂ Exchanged (parts.map partOf) (others.map partOf) := by
    rw [List.forall₂_map_left_iff, List.forall₂_map_right_iff]
    refine kept.imp fun part other kept => ⟨congrArg characters kept.1, ?_⟩
    rw [partOf, encode_characters]
    exact (settledInside_of_kept identifiers kept).1
  have edge : Pattern.isWord ([] : List Char).getLast? = Pattern.isWord ([] : List Char).getLast? ∨
      (characters (weave tail parts)).head? ≠ some 'r' := .inl rfl
  obtain ⟨alike, laid⟩ := Laid.exchange parted (characters_weave tail parts) rfl exchanged edge
  rw [← characters_weave] at alike laid
  exact ⟨alike, laid⟩

private theorem settles_weave (identifiers : names.Identifiers) {tail : List Glyph}
    {parts others : List (Part Glyph)} (parted : Parted tail parts)
    (kept : List.Forall₂ (Kept names (Settles names)) parts others) :
    Settles names (weave tail parts) (weave tail others) := by
  obtain ⟨alike, otherParted⟩ := exchange_kept identifiers parted kept
  refine ⟨alike, (settled_weave otherParted).mpr ?_⟩
  clear otherParted alike parted
  induction kept with
  | nil => simp
  | cons here _ ih =>
    exact List.forall_mem_cons.mpr ⟨(settledInside_of_kept identifiers here).2, ih⟩

/-- A run of the filter exchanges contents and leaves no name to drop. -/
theorem Filtered.exists_settles (identifiers : names.Identifiers) {glyphs : List Glyph}
    {kept : Marked} (filtered : Filtered names (marked glyphs) kept) :
    ∃ others, kept = marked others ∧ Settles names glyphs others :=
  filtered.thinned fun parted kept => settles_weave identifiers parted kept

/-- In the mask of what is kept no name is left to drop. -/
theorem Filtered.settled (identifiers : names.Identifiers) {glyphs : List Glyph} {kept : Marked}
    (filtered : Filtered names (marked glyphs) kept) : Settled names kept.mask := by
  obtain ⟨others, rfl, settles⟩ := filtered.exists_settles identifiers
  exact settles.settled

/-- A second run changes nothing if what is kept has the mask that the filter cut along, and exactly
if it comes to no name in the mask that what is kept has. -/
theorem apply_twice {names : NameSet} (identifiers : names.Identifiers) (script : String) :
    ∃ kept, Filtered names (Marked.ofScript (Text.ofString script)) kept ∧
      kept.text = apply names (Text.ofString script) ∧
      ((apply names (Text.ofString script)).mask = kept.mask →
        apply names (apply names (Text.ofString script)) = apply names (Text.ofString script)) ∧
      (apply names (apply names (Text.ofString script)) = apply names (Text.ofString script) ↔
        Settled names (apply names (Text.ofString script)).mask) := by
  rw [ofString_eq]
  obtain ⟨glyphs, kept, whole, filtered, computed⟩ := exists_run names script.toList
  have settled := filtered.settled identifiers
  have again : apply names kept.text = kept.text ↔ Settled names kept.text.mask := by
    obtain ⟨others, rfl, -⟩ := filtered.exists_thins identifiers
    change apply names (text others) = text others ↔ Settled names (text others).mask
    rw [text_eq_encode]
    exact apply_eq_self_iff identifiers _
  rw [← computed]
  refine ⟨kept, whole ▸ filtered, rfl, fun same => ?_, again⟩
  rw [again, same]
  exact settled

/-- An entry with a local name is dropped, and a second run comes to no such name. -/
theorem apply_twice_hidden :
    (NameSet.ofList [Text.ofString "hidden"]).Identifiers ∧
      apply (NameSet.ofList [Text.ofString "hidden"])
        (Text.ofString "return \x7b a, hidden: b \x7d") = Text.ofString "return \x7b a \x7d" ∧
      Settled (NameSet.ofList [Text.ofString "hidden"])
        (Text.ofString "return \x7b a \x7d").mask := by
  have identifiers : (NameSet.ofList [Text.ofString "hidden"]).Identifiers := by decide +kernel
  have output : apply (NameSet.ofList [Text.ofString "hidden"])
      (Text.ofString "return \x7b a, hidden: b \x7d") = Text.ofString "return \x7b a \x7d" := by
    decide +kernel
  have second : apply (NameSet.ofList [Text.ofString "hidden"])
      (Text.ofString "return \x7b a \x7d") = Text.ofString "return \x7b a \x7d" := by
    decide +kernel
  obtain ⟨kept, -, -, -, settles⟩ := apply_twice identifiers "return \x7b a, hidden: b \x7d"
  rw [output] at settles
  exact ⟨identifiers, output, settles.mp second⟩

/-- A line comment at the end of the last survivor takes in what was behind it, so that a bracket
behind it no longer closes the literal and a second run comes to one more entry. -/
theorem apply_twice_drops_more : ¬∀ (names : NameSet) (script : String), names.Identifiers →
    apply names (apply names (Text.ofString script)) = apply names (Text.ofString script) := by
  intro idempotent
  have identifiers : (NameSet.ofList [Text.ofString "hidden"]).Identifiers := by decide +kernel
  have first : apply (NameSet.ofList [Text.ofString "hidden"])
      (Text.ofString "return \x7b a // c\n, hidden \x7d \n, hidden \x7d") =
      Text.ofString "return \x7b a // c \x7d \n, hidden \x7d" := by
    decide +kernel
  have second : apply (NameSet.ofList [Text.ofString "hidden"])
      (Text.ofString "return \x7b a // c \x7d \n, hidden \x7d") =
        Text.ofString "return \x7b a // c \x7d \x7d" := by
    decide +kernel
  have again := idempotent _ "return \x7b a // c\n, hidden \x7d \n, hidden \x7d" identifiers
  rw [first, second] at again
  exact absurd again (by decide +kernel)

end BareComponent.ReturnFilter
