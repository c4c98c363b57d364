import BareComponent.Proofs.Json.Numeral
import BareComponent.Proofs.Json.Quoted
import BareComponent.Proofs.Table

/-! # A printed value

A reader that comes to a printed value reads it back and stops behind it, whatever follows, as long
as that does not go on with a number. This takes a value that the reader is made for: its numbers
are read back, its objects list their keys in rising order, and it is nested no deeper than the
reader may go.
-/

namespace BareComponent

open Reader

namespace Json

/-- Whether a value that opens at most `depth` levels is one that can be read back. -/
inductive Readable : (depth : Nat) → Json → Prop
  | null {depth : Nat} : Readable depth null
  | bool {depth : Nat} {value : Bool} : Readable depth (bool value)
  | number {depth : Nat} {value : Number}
      (back : Number.reader true value.print = some (value, [])) : Readable depth (number value)
  | string {depth : Nat} {value : Text} : Readable depth (string value)
  | array {depth : Nat} {items : List Json} (inside : ∀ item ∈ items, Readable depth item) :
      Readable (depth + 1) (array items)
  | object {depth : Nat} {fields : List (Text × Json)}
      (rising : fields.Pairwise fun left right => left.1 < right.1)
      (inside : ∀ field ∈ fields, Readable depth field.2) : Readable (depth + 1) (object fields)

/-- A reader that may go deeper reads no less. -/
theorem Readable.mono {depth deeper : Nat} {value : Json} (readable : Readable depth value)
    (ordered : depth ≤ deeper) : Readable deeper value := by
  induction readable generalizing deeper with
  | null => exact .null
  | bool => exact .bool
  | number back => exact .number back
  | string => exact .string
  | array inside ih =>
    obtain ⟨deeper, rfl⟩ := Nat.exists_eq_add_one.mpr (Nat.lt_of_lt_of_le (Nat.succ_pos _) ordered)
    exact .array fun item member => ih item member (Nat.le_of_succ_le_succ ordered)
  | object rising inside ih =>
    obtain ⟨deeper, rfl⟩ := Nat.exists_eq_add_one.mpr (Nat.lt_of_lt_of_le (Nat.succ_pos _) ordered)
    exact .object rising fun field member => ih field member (Nat.le_of_succ_le_succ ordered)

/-- Whether a value is read off the front of any text that does not go on with a number behind
it. -/
def IsRead (depth : Nat) (value : Json) : Prop :=
  ∀ fuel rest, 2 * value.print.length ≤ fuel → Text.EndsNumber rest →
    read true fuel depth (value.print ++ rest) = some (value, rest)

private theorem ne_of_numeral {b c : UInt8} (numeral : b = Byte.minus ∨ Byte.isDigit b = true)
    (dark : ¬(c = Byte.minus ∨ Byte.isDigit c = true)) : b ≠ c := by
  rintro rfl
  exact dark numeral

private theorem not_isGap_of_numeral {b : UInt8}
    (numeral : b = Byte.minus ∨ Byte.isDigit b = true) : isGap b = false := by
  simp only [isGap, Bool.or_eq_false_iff, beq_eq_false_iff_ne]
  exact ⟨⟨⟨ne_of_numeral numeral (by decide), ne_of_numeral numeral (by decide)⟩,
    ne_of_numeral numeral (by decide)⟩, ne_of_numeral numeral (by decide)⟩

section Steps

variable (fuel depth : Nat) (rest : Text)

theorem read_quote : read true (fuel + 1) depth (Byte.doubleQuote :: rest) =
    (stringRest true rest.length rest).map fun (text, rest) => (string text, rest) := rfl

theorem read_openBracket : read true (fuel + 1) (depth + 1) (Byte.openBracket :: rest) =
    match token? Byte.closeBracket rest with
    | some rest => some (array [], rest)
    | none => (readItems true fuel depth rest).map fun (items, rest) => (array items, rest) := by
  change (match token? Byte.closeBracket rest with | some rest => _ | none => _) = _
  cases token? Byte.closeBracket rest with
  | some rest => rfl
  | none => cases readItems true fuel depth rest <;> rfl

theorem read_openBrace : read true (fuel + 1) (depth + 1) (Byte.openBrace :: rest) =
    match token? Byte.closeBrace rest with
    | some rest => some (object [], rest)
    | none => (readFields true fuel depth rest).map fun (fields, rest) =>
        (object (Table.ofList fields).entries, rest) := by
  change (match token? Byte.closeBrace rest with | some rest => _ | none => _) = _
  cases token? Byte.closeBrace rest with
  | some rest => rfl
  | none => cases readFields true fuel depth rest <;> rfl

theorem read_word : read true (fuel + 1) depth (null.print ++ rest) = some (null, rest) ∧
    read true (fuel + 1) depth ((bool true).print ++ rest) = some (bool true, rest) ∧
    read true (fuel + 1) depth ((bool false).print ++ rest) = some (bool false, rest) := by
  have found (word : Text) : Text.after? (word ++ rest) word = some rest :=
    Text.after?_eq_some_iff.mpr rfl
  refine ⟨?_, ?_, ?_⟩
  · change (match Text.after? (Text.ofString "null" ++ rest) "null" with
      | some rest => some (null, rest) | none => _) = _
    rw [found]
  · change (match Text.after? (Text.ofString "true" ++ rest) "true" with
      | some rest => some (bool true, rest) | none => _) = _
    rw [found]
  · change (Text.after? (Text.ofString "false" ++ rest) "false").map (bool false, ·) = _
    rw [found]
    rfl

theorem read_numeral {b : UInt8} (numeral : b = Byte.minus ∨ Byte.isDigit b = true) :
    read true (fuel + 1) depth (b :: rest) =
      (Number.reader true (b :: rest)).map fun (value, rest) => (number value, rest) := by
  have visible := not_isGap_of_numeral numeral
  have quote : b ≠ Byte.doubleQuote := ne_of_numeral numeral (by decide)
  have bracket : b ≠ Byte.openBracket := ne_of_numeral numeral (by decide)
  have brace : b ≠ Byte.openBrace := ne_of_numeral numeral (by decide)
  rw [read]
  simp only [skipGap, List.dropWhile_cons, visible, quote, bracket, brace, numeral, if_false,
    if_true, Bool.false_eq_true]

end Steps

/-- A printed value begins with a byte that is no gap and closes no array. -/
theorem exists_print_eq_cons {depth : Nat} {value : Json} (readable : Readable depth value) :
    ∃ b rest, value.print = b :: rest ∧ isGap b = false ∧ b ≠ Byte.closeBracket := by
  cases readable with
  | null => exact ⟨_, _, rfl, by decide, by decide⟩
  | @bool _ value => cases value <;> exact ⟨_, _, rfl, by decide, by decide⟩
  | string => exact ⟨_, _, rfl, by decide, by decide⟩
  | array => exact ⟨_, _, rfl, by decide, by decide⟩
  | object => exact ⟨_, _, rfl, by decide, by decide⟩
  | number back =>
    obtain ⟨b, rest, shape, numeral⟩ := Number.exists_cons_of_reader back
    exact ⟨b, rest, shape, not_isGap_of_numeral numeral, ne_of_numeral numeral (by decide)⟩

theorem token?_cons {b : UInt8} (visible : isGap b = false) (rest : Text) :
    token? b (b :: rest) = some rest := by
  simp [token?, skipGap, visible]

theorem token?_cons_of_ne {b c : UInt8} (visible : isGap c = false) (other : c ≠ b)
    (rest : Text) : token? b (c :: rest) = none := by
  simp [token?, skipGap, visible, other]

section Lists

theorem printItems_cons (item : Json) {items : List Json} (nonempty : items ≠ []) :
    printItems (item :: items) = item.print ++ Byte.comma :: printItems items := by
  rw [printItems]
  exact nonempty

theorem printFields_cons (key : Text) (value : Json) {fields : List (Text × Json)}
    (nonempty : fields ≠ []) : printFields ((key, value) :: fields) =
      key.quoted ++ Byte.colon :: value.print ++ Byte.comma :: printFields fields := by
  rw [printFields]
  exact nonempty

variable {depth fuel : Nat}

/-- Items that are read by themselves are read in an array. -/
theorem readItems_printItems {items : List Json} (nonempty : items ≠ [])
    (inside : ∀ item ∈ items, IsRead depth item) (rest : Text)
    (enough : 2 * (printItems items).length + 1 ≤ fuel) :
    readItems true fuel depth (printItems items ++ Byte.closeBracket :: rest) =
      some (items, rest) := by
  induction items generalizing fuel with
  | nil => exact absurd rfl nonempty
  | cons item items ih =>
    obtain ⟨first, others⟩ := List.forall_mem_cons.mp inside
    obtain ⟨fuel, rfl⟩ := Nat.exists_eq_add_one.mpr (Nat.lt_of_lt_of_le (Nat.succ_pos _) enough)
    by_cases last : items = []
    · subst last
      have read := first fuel (Byte.closeBracket :: rest) (by simpa [printItems] using enough)
        (Text.endsNumber_cons rest (by decide))
      rw [printItems, readItems, read]
      simp [token?_cons_of_ne (b := Byte.comma) (c := Byte.closeBracket) (by decide) (by decide),
        token?_cons (b := Byte.closeBracket) (by decide)]
    · rw [printItems_cons item last] at enough ⊢
      rw [List.length_append, List.length_cons] at enough
      have read := first fuel (Byte.comma :: (printItems items ++ Byte.closeBracket :: rest))
        (by omega) (Text.endsNumber_cons _ (by decide))
      have shorter : 2 * (printItems items).length + 1 ≤ fuel := by omega
      have later := ih last others shorter
      rw [List.append_assoc, List.cons_append, readItems, read]
      simp [token?_cons (b := Byte.comma) (by decide), later]

/-- Fields whose values are read by themselves are read in an object. -/
theorem readFields_printFields {fields : List (Text × Json)} (nonempty : fields ≠ [])
    (inside : ∀ field ∈ fields, IsRead depth field.2) (rest : Text)
    (enough : 2 * (printFields fields).length + 1 ≤ fuel) :
    readFields true fuel depth (printFields fields ++ Byte.closeBrace :: rest) =
      some (fields, rest) := by
  induction fields generalizing fuel with
  | nil => exact absurd rfl nonempty
  | cons field fields ih =>
    obtain ⟨key, value⟩ := field
    obtain ⟨first, others⟩ := List.forall_mem_cons.mp inside
    have first : IsRead depth value := first
    obtain ⟨fuel, rfl⟩ := Nat.exists_eq_add_one.mpr (Nat.lt_of_lt_of_le (Nat.succ_pos _) enough)
    by_cases last : fields = []
    · subst last
      rw [printFields, List.length_append, List.length_cons] at enough
      have read := first fuel (Byte.closeBrace :: rest) (by omega)
        (Text.endsNumber_cons rest (by decide))
      rw [printFields, List.append_assoc, List.cons_append, readFields, string_quoted_append]
      simp [token?_cons (b := Byte.colon) (by decide), read,
        token?_cons_of_ne (b := Byte.comma) (c := Byte.closeBrace) (by decide) (by decide),
        token?_cons (b := Byte.closeBrace) (by decide)]
    · rw [printFields_cons key value last] at enough ⊢
      rw [List.length_append, List.length_append, List.length_cons, List.length_cons] at enough
      have read := first fuel (Byte.comma :: (printFields fields ++ Byte.closeBrace :: rest))
        (by omega) (Text.endsNumber_cons _ (by decide))
      have shorter : 2 * (printFields fields).length + 1 ≤ fuel := by omega
      have later := ih last others shorter
      rw [List.append_assoc, List.append_assoc, List.cons_append, List.cons_append, readFields,
        string_quoted_append]
      simp [token?_cons (b := Byte.colon) (by decide), read,
        token?_cons (b := Byte.comma) (by decide), later]

/-- An object begins with the quote of its first key. -/
theorem exists_printFields_eq_cons {fields : List (Text × Json)} (nonempty : fields ≠ []) :
    ∃ rest, printFields fields = Byte.doubleQuote :: rest := by
  obtain ⟨⟨key, value⟩, fields, rfl⟩ := List.exists_cons_of_ne_nil nonempty
  cases fields with
  | nil => exact ⟨_, rfl⟩
  | cons next fields => exact ⟨_, rfl⟩

theorem exists_printItems_eq_cons {items : List Json} (nonempty : items ≠ [])
    (inside : ∀ item ∈ items, Readable depth item) :
    ∃ b rest, printItems items = b :: rest ∧ isGap b = false ∧ b ≠ Byte.closeBracket := by
  obtain ⟨item, items, rfl⟩ := List.exists_cons_of_ne_nil nonempty
  obtain ⟨b, rest, shape, visible, other⟩ := exists_print_eq_cons (inside item List.mem_cons_self)
  by_cases last : items = []
  · subst last
    exact ⟨b, rest, by rw [printItems, shape], visible, other⟩
  · exact ⟨b, _, by rw [printItems_cons item last, shape, List.cons_append], visible, other⟩

end Lists

namespace IsRead

variable {depth : Nat}

/-- A printed value is not empty, so there is fuel for the first step of its reader. -/
theorem of_step {value : Json} (nonempty : value.print ≠ [])
    (step : ∀ fuel rest, 2 * value.print.length ≤ fuel + 1 → Text.EndsNumber rest →
      read true (fuel + 1) depth (value.print ++ rest) = some (value, rest)) :
    IsRead depth value := by
  intro fuel rest enough ends
  have someByte := List.length_pos_iff.mpr nonempty
  obtain ⟨fuel, rfl⟩ := Nat.exists_eq_add_one.mpr (by omega : 0 < fuel)
  exact step fuel rest enough ends

theorem null : IsRead depth null :=
  of_step (by decide) fun fuel rest _ _ => (read_word fuel depth rest).1

theorem bool (value : Bool) : IsRead depth (bool value) := by
  cases value with
  | false => exact of_step (by decide) fun fuel rest _ _ => (read_word fuel depth rest).2.2
  | true => exact of_step (by decide) fun fuel rest _ _ => (read_word fuel depth rest).2.1

/-- A number is read back if its numeral is. -/
theorem number {value : Number} (back : Number.reader true value.print = some (value, [])) :
    IsRead depth (number value) := by
  obtain ⟨b, more, shape, numeral⟩ := Number.exists_cons_of_reader back
  refine of_step (by rw [print, shape]; exact List.cons_ne_nil b more) fun fuel rest _ ends => ?_
  have read := Number.isLocal_reader value.print rest value [] back fun _ => ends
  rw [shape, List.cons_append] at read
  rw [print, shape, List.cons_append, read_numeral fuel depth _ numeral, read]
  rfl

/-- Every text is read back from its quotes. -/
theorem string (value : Text) : IsRead depth (string value) := by
  refine of_step (List.cons_ne_nil _ _) fun fuel rest _ _ => ?_
  rw [print, Text.quoted, List.cons_append, List.cons_append, List.append_assoc, read_quote,
    List.singleton_append, stringRest_quoted_append]
  rfl

/-- An array is read back if its items are. -/
theorem array {items : List Json} (readable : ∀ item ∈ items, Readable depth item)
    (inside : ∀ item ∈ items, IsRead depth item) : IsRead (depth + 1) (array items) := by
  refine of_step (List.cons_ne_nil _ _) fun fuel rest enough _ => ?_
  rw [print, List.cons_append, List.length_cons, List.length_append, List.length_singleton]
    at enough
  rw [print, List.cons_append, List.cons_append, List.append_assoc, List.singleton_append,
    read_openBracket]
  by_cases nothing : items = []
  · subst nothing
    rw [printItems, List.nil_append, token?_cons (by decide)]
  · obtain ⟨b, more, shape, visible, other⟩ := exists_printItems_eq_cons nothing readable
    have opened : token? Byte.closeBracket (printItems items ++ Byte.closeBracket :: rest) =
        none := by
      rw [shape, List.cons_append]
      exact token?_cons_of_ne visible other _
    rw [opened, readItems_printItems nothing inside rest (by omega)]
    rfl

/-- An object is read back if its values are and its keys rise. -/
theorem object {fields : List (Text × Json)}
    (rising : fields.Pairwise fun left right => left.1 < right.1)
    (inside : ∀ field ∈ fields, IsRead depth field.2) : IsRead (depth + 1) (object fields) := by
  refine of_step (List.cons_ne_nil _ _) fun fuel rest enough _ => ?_
  rw [print, List.cons_append, List.length_cons, List.length_append, List.length_singleton]
    at enough
  rw [print, List.cons_append, List.cons_append, List.append_assoc, List.singleton_append,
    read_openBrace]
  by_cases nothing : fields = []
  · subst nothing
    rw [printFields, List.nil_append, token?_cons (by decide)]
  · obtain ⟨more, shape⟩ := exists_printFields_eq_cons nothing
    have opened : token? Byte.closeBrace (printFields fields ++ Byte.closeBrace :: rest) =
        none := by
      rw [shape, List.cons_append]
      exact token?_cons_of_ne (by decide) (by decide) _
    have entries : (Table.ofList fields).entries = fields :=
      congrArg Table.entries (Table.ofList_entries ⟨fields, rising⟩)
    rw [opened, readFields_printFields nothing inside rest (by omega)]
    simp only [Option.map_some, entries]

end IsRead

/-- A printed value is read back, whatever follows it that does not go on with a number. -/
theorem Readable.isRead {depth : Nat} {value : Json} (readable : Readable depth value) :
    IsRead depth value := by
  induction readable with
  | null => exact .null
  | @bool _ value => exact .bool value
  | number back => exact .number back
  | @string _ value => exact .string value
  | array readable ih => exact .array readable ih
  | object rising _ ih => exact .object rising ih

/-- A printed table is read back, whatever follows it that does not go on with a number. -/
theorem tableReader_print {depth : Nat} {table : Table Json}
    (readable : ∀ entry ∈ table.entries, Readable depth entry.2) {rest : Text}
    (ends : rest.EndsNumber) :
    tableReader (depth + 1) ((object table.entries).print ++ rest) = some (table, rest) := by
  have read := (Readable.object table.rising readable).isRead
    (3 * ((object table.entries).print ++ rest).length + 1) rest (by simp; omega) ends
  rw [tableReader, reader, read]
  simp

end Json

end BareComponent
