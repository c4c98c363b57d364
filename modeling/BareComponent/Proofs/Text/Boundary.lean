import BareComponent.Proofs.Text.Encoding
import BareComponent.Text.Bracket

/-! # Boundaries between characters

An offset into a text is a boundary if no character goes on there. In a string the boundaries are
the places between two characters, so there is one in front of each ASCII byte and one behind it,
and what stands between two boundaries is a string again. Skipping blanks and reading an expression
lead from one boundary to another.
-/

namespace BareComponent.Text

/-- Whether no character goes on at an offset of a text. -/
def IsBoundary (text : Text) (offset : Nat) : Prop :=
  offset = 0 ∨ offset = text.length ∨
    text[offset]?.any (fun b => !Byte.continuesCharacter b) = true

instance (text : Text) (offset : Nat) : Decidable (text.IsBoundary offset) :=
  inferInstanceAs (Decidable (_ ∨ _ ∨ _))

/-- Whether a span takes whole characters out of a text. -/
structure IsWhole (text : Text) (span : Span) : Prop where
  ordered : span.start ≤ span.stop
  inside : span.stop ≤ text.length
  starts : text.IsBoundary span.start
  stops : text.IsBoundary span.stop

instance (text : Text) (span : Span) : Decidable (text.IsWhole span) :=
  decidable_of_iff
    ((span.start ≤ span.stop ∧ span.stop ≤ text.length) ∧
      text.IsBoundary span.start ∧ text.IsBoundary span.stop)
    ⟨fun ⟨⟨ordered, inside⟩, starts, stops⟩ => ⟨ordered, inside, starts, stops⟩,
      fun whole => ⟨⟨whole.ordered, whole.inside⟩, whole.starts, whole.stops⟩⟩

section Boundaries

variable {text : Text} {offset : Nat} {b : UInt8}

theorem isBoundary_zero (text : Text) : text.IsBoundary 0 := .inl rfl

theorem isBoundary_length (text : Text) : text.IsBoundary text.length := .inr (.inl rfl)

theorem IsBoundary.le_length (boundary : text.IsBoundary offset) : offset ≤ text.length := by
  rcases boundary with rfl | rfl | begins
  · exact Nat.zero_le _
  · exact Nat.le_refl _
  · cases here : text[offset]? with
    | none => simp [here] at begins
    | some b => exact (List.getElem?_eq_some_iff.mp here).1.le

theorem IsBoundary.isWhole {start stop : Nat} (starts : text.IsBoundary start)
    (stops : text.IsBoundary stop) (ordered : start ≤ stop) : text.IsWhole ⟨start, stop⟩ :=
  ⟨ordered, stops.le_length, starts, stops⟩

private theorem head?_encode {characters : List Char} :
    ∀ b ∈ (encode characters).head?, Byte.continuesCharacter b = false := by
  cases characters with
  | nil => simp
  | cons c rest =>
    obtain ⟨lead, tail, shape, begins, -⟩ := encodeChar_eq_cons c
    simpa [shape] using begins

/-- A boundary stands behind every character. -/
theorem isBoundary_encode (front behind : List Char) :
    (encode (front ++ behind)).IsBoundary (encode front).length := by
  rw [encode_append]
  cases shape : encode behind with
  | nil => exact .inr (.inl (by simp))
  | cons b rest =>
    have begins := head?_encode b (by rw [shape]; rfl)
    exact .inr (.inr (by simp [begins]))

/-- A boundary of a string cuts it between two of its characters. -/
theorem IsBoundary.exists_append {characters : List Char}
    (boundary : (encode characters).IsBoundary offset) :
    ∃ front behind, characters = front ++ behind ∧ (encode front).length = offset := by
  rcases boundary with rfl | rfl | begins
  · exact ⟨[], characters, rfl, rfl⟩
  · exact ⟨characters, [], (List.append_nil _).symm, rfl⟩
  · cases here : (encode characters)[offset]? with
    | none => simp [here] at begins
    | some b =>
      obtain ⟨bytes, rest, split, length⟩ := exists_append_of_getElem? here
      obtain ⟨front, behind, rfl, frontEq, -⟩ :=
        encode_eq_append_of_begins split (by simpa [here] using begins)
      exact ⟨front, behind, rfl, by rw [frontEq, length]⟩

/-- Beside an ASCII byte of a string there are boundaries. -/
theorem isBoundary_of_ascii (string : IsString text) (here : text[offset]? = some b)
    (ascii : b.toNat < 0x80) : text.IsBoundary offset ∧ text.IsBoundary (offset + 1) := by
  obtain ⟨characters, rfl⟩ := string
  obtain ⟨before, after, split, place⟩ := exists_append_of_getElem? here
  obtain ⟨front, c, behind, rfl, frontEq, bytes, -⟩ := encode_eq_append_cons split ascii
  have length : (encode front).length = offset := by rw [frontEq, place]
  have next : (encode (front ++ [c])).length = offset + 1 := by simp [bytes, length]
  have last : front ++ c :: behind = front ++ [c] ++ behind := by simp
  refine ⟨length ▸ isBoundary_encode front (c :: behind), ?_⟩
  rw [last, ← next]
  exact isBoundary_encode (front ++ [c]) behind

/-- A span that takes whole characters out of a string cuts it in three. -/
theorem IsWhole.exists_append {characters : List Char} {span : Span}
    (whole : (encode characters).IsWhole span) :
    ∃ front piece behind, characters = front ++ (piece ++ behind) ∧
      (encode front).length = span.start ∧ (encode (front ++ piece)).length = span.stop ∧
      (encode characters).slice span = encode piece := by
  obtain ⟨front, behind, rfl, stop⟩ := whole.stops.exists_append
  obtain ⟨first, rest, same, start⟩ := whole.starts.exists_append
  obtain ⟨piece, rfl, -⟩ := exists_append_of_length_le same.symm
    (by rw [start, stop]; exact whole.ordered)
  refine ⟨first, piece, behind, List.append_assoc .., start, stop, ?_⟩
  rw [slice, ← start, ← stop, encode_append _ behind, List.take_left, encode_append,
    List.drop_left]

/-- What is cut out of a string in whole characters is a string. -/
theorem IsWhole.isString {span : Span} (whole : text.IsWhole span) (string : IsString text) :
    IsString (text.slice span) := by
  obtain ⟨characters, rfl⟩ := string
  obtain ⟨-, piece, -, -, -, -, cut⟩ := whole.exists_append
  exact ⟨piece, cut⟩

private theorem IsBoundary.add_takeWhile {accepts : UInt8 → Bool} (string : IsString text)
    (ascii : ∀ b, accepts b = true → b.toNat < 0x80) (boundary : text.IsBoundary offset) :
    text.IsBoundary (offset + ((text.drop offset).takeWhile accepts).length) := by
  rcases List.eq_nil_or_concat' ((text.drop offset).takeWhile accepts) with empty | ⟨run, b, shape⟩
  · simpa [empty] using boundary
  · have member : b ∈ (text.drop offset).takeWhile accepts := by simp [shape]
    have here : text[offset + run.length]? = some b := by
      rw [← List.getElem?_drop, ← List.takeWhile_append_dropWhile (p := accepts)
        (l := text.drop offset), shape]
      simp
    rw [shape, List.length_append]
    exact (isBoundary_of_ascii string here (ascii b (List.mem_takeWhile_imp member))).2

/-- Skipping blanks leads from a boundary to a boundary. -/
theorem IsBoundary.skipBlanks (string : IsString text) (boundary : text.IsBoundary offset) :
    text.IsBoundary (text.skipBlanks offset) := by
  have ascii (b : UInt8) (blank : Byte.isBlank b = true) : b.toNat < 0x80 := by
    simp only [Byte.isBlank, Bool.or_eq_true, beq_iff_eq] at blank
    rcases blank with (((rfl | rfl) | rfl) | rfl) | rfl
    all_goals decide
  have behind := boundary.add_takeWhile string ascii
  rwa [Text.skipBlanks, Nat.min_eq_right behind.le_length]

private theorem expressionLength_ends (depth : Nat) (text : Text) :
    expressionLength depth text = text.length ∨
      ∃ b, text[expressionLength depth text]? = some b ∧ endsExpression b = true := by
  induction text generalizing depth with
  | nil => exact .inl rfl
  | cons b rest ih =>
    rw [expressionLength]
    split
    · next ends => exact .inr ⟨b, rfl, ends.2⟩
    · simpa using ih (depthStep depth b)

theorem isBoundary_expressionEnd (string : IsString text) (inside : offset ≤ text.length) :
    text.IsBoundary (text.expressionEnd offset) ∧ offset ≤ text.expressionEnd offset := by
  have ascii (b : UInt8) (ends : endsExpression b = true) : b.toNat < 0x80 := by
    simp only [endsExpression, Byte.isClose, Bool.or_eq_true, beq_iff_eq] at ends
    rcases ends with ((((rfl | rfl) | rfl) | rfl) | rfl) | rfl
    all_goals decide
  rw [expressionEnd]
  rcases expressionLength_ends 0 (text.drop offset) with whole | ⟨b, here, ends⟩
  · have stop : offset + (text.drop offset).length = text.length := by
      rw [List.length_drop]
      omega
    rw [whole, stop, Nat.min_self]
    exact ⟨isBoundary_length text, inside⟩
  · rw [List.getElem?_drop] at here
    have stop := (List.getElem?_eq_some_iff.mp here).1.le
    rw [Nat.min_eq_right stop]
    exact ⟨(isBoundary_of_ascii string here (ascii b ends)).1, Nat.le_add_right ..⟩

private theorem IsBoundary.add_length_continues_le {limit : Nat} (string : IsString text)
    (boundary : text.IsBoundary limit) (below : offset ≤ limit) :
    offset + ((text.drop offset).takeWhile Byte.continuesCharacter).length ≤ limit := by
  obtain ⟨characters, rfl⟩ := string
  obtain ⟨front, behind, rfl, rfl⟩ := boundary.exists_append
  have empty : (encode behind).takeWhile Byte.continuesCharacter = [] := by
    cases shape : encode behind with
    | nil => rfl
    | cons b rest => simp [head?_encode b (by rw [shape]; rfl)]
  have run : ((encode front).drop offset ++ encode behind).takeWhile Byte.continuesCharacter =
      ((encode front).drop offset).takeWhile Byte.continuesCharacter := by
    rw [List.takeWhile_append, empty]
    split
    · next whole => rw [List.append_nil, (List.takeWhile_prefix _).eq_of_length whole]
    · rfl
  have short := (List.takeWhile_prefix (p := Byte.continuesCharacter)
    (l := (encode front).drop offset)).length_le
  rw [List.length_drop] at short
  rw [encode_append, List.drop_append_of_le_length below, run]
  omega

/-- The next boundary is a boundary, and no other stands in front of it. -/
theorem isBoundary_characterBoundary (string : IsString text) {limit : Nat}
    (boundary : text.IsBoundary limit) (below : offset ≤ limit) :
    text.IsBoundary (text.characterBoundary offset) ∧ text.characterBoundary offset ≤ limit := by
  have stop := boundary.add_length_continues_le string below
  rw [characterBoundary, Nat.min_eq_right (stop.trans boundary.le_length)]
  refine ⟨?_, stop⟩
  cases rest : (text.drop offset).dropWhile Byte.continuesCharacter with
  | nil =>
    have whole := List.takeWhile_append_dropWhile (p := Byte.continuesCharacter)
      (l := text.drop offset)
    rw [rest, List.append_nil] at whole
    rw [whole, List.length_drop, Nat.add_sub_cancel' (below.trans boundary.le_length)]
    exact isBoundary_length text
  | cons b rest =>
    have begins : Byte.continuesCharacter b = false := by
      simpa [rest] using List.head?_dropWhile_not Byte.continuesCharacter (text.drop offset)
    have here : text[offset + ((text.drop offset).takeWhile Byte.continuesCharacter).length]? =
        some b := by
      rw [← List.getElem?_drop]
      nth_rewrite 1 [← List.takeWhile_append_dropWhile (p := Byte.continuesCharacter)
        (l := text.drop offset)]
      simp_all
    exact .inr (.inr (by simp [here, begins]))

end Boundaries

end BareComponent.Text
