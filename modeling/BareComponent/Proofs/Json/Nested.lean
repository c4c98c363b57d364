import BareComponent.Proofs.Json.Record

/-! # How deep a value is nested

A reader that may open so many levels reads a printed value back if the value has no more of them,
and refuses it otherwise. So it does with a record: one field whose value is refused is enough.
-/

namespace BareComponent

open Reader

namespace Json

mutual

/-- How many levels of arrays and objects a value has. -/
def depth : Json → Nat
  | null | bool _ | number _ | string _ => 0
  | array items => depthItems items + 1
  | object fields => depthFields fields + 1

/-- How many levels the deepest of some items has. -/
def depthItems : List Json → Nat
  | [] => 0
  | item :: items => max item.depth (depthItems items)

/-- How many levels the deepest value of some fields has. -/
def depthFields : List (Text × Json) → Nat
  | [] => 0
  | (_, value) :: fields => max value.depth (depthFields fields)

end

/-- An array nests as deep as the deepest of its items. -/
theorem depthItems_le_iff {items : List Json} {limit : Nat} :
    depthItems items ≤ limit ↔ ∀ item ∈ items, item.depth ≤ limit := by
  induction items with
  | nil => simp [depthItems]
  | cons item items ih => simp [depthItems, ih]

theorem depthFields_le_iff {fields : List (Text × Json)} {limit : Nat} :
    depthFields fields ≤ limit ↔ ∀ field ∈ fields, field.2.depth ≤ limit := by
  induction fields with
  | nil => simp [depthFields]
  | cons field fields ih => simp [depthFields, ih]

/-- Whether a value is built of words, integers of 64 bits, strings, arrays, and objects that list
each key once and in rising order. -/
inductive Storable : Json → Prop
  | null : Storable null
  | bool {value : Bool} : Storable (bool value)
  | integer {value : Int} (fits : Number.Fits value) : Storable (number (.integer value))
  | string {value : Text} : Storable (string value)
  | array {items : List Json} (inside : ∀ item ∈ items, Storable item) : Storable (array items)
  | object {fields : List (Text × Json)}
      (rising : fields.Pairwise fun left right => left.1 < right.1)
      (inside : ∀ field ∈ fields, Storable field.2) : Storable (object fields)

/-- A value is read back by a reader that may go as deep. -/
theorem Storable.readable {value : Json} (storable : Storable value) {limit : Nat}
    (shallow : value.depth ≤ limit) : Readable limit value := by
  induction storable generalizing limit with
  | null => exact .null
  | bool => exact .bool
  | integer fits => exact .number (Number.reader_print_integer fits)
  | string => exact .string
  | array inside ih =>
    obtain ⟨limit, rfl⟩ := Nat.exists_eq_add_one.mpr (Nat.lt_of_lt_of_le (Nat.succ_pos _) shallow)
    have items := depthItems_le_iff.mp (Nat.le_of_succ_le_succ shallow)
    exact .array fun item member => ih item member (items item member)
  | object rising inside ih =>
    obtain ⟨limit, rfl⟩ := Nat.exists_eq_add_one.mpr (Nat.lt_of_lt_of_le (Nat.succ_pos _) shallow)
    have fields := depthFields_le_iff.mp (Nat.le_of_succ_le_succ shallow)
    exact .object rising fun field member => ih field member (fields field member)

/-- Whether a value is refused off the front of any text that does not go on with a number behind
it. -/
def IsRefused (limit : Nat) (value : Json) : Prop :=
  ∀ fuel rest, 2 * value.print.length ≤ fuel → Text.EndsNumber rest →
    read true fuel limit (value.print ++ rest) = none

variable {limit fuel : Nat}

private theorem exists_behind_item (item : Json) (items : List Json) (rest : Text) :
    ∃ behind : Text, printItems (item :: items) ++ Byte.closeBracket :: rest = item.print ++ behind ∧
      behind.EndsNumber ∧ item.print.length ≤ (printItems (item :: items)).length := by
  by_cases last : items = []
  · subst last
    exact ⟨_, by rw [printItems], Text.endsNumber_cons rest (by decide), by rw [printItems]⟩
  · rw [printItems_cons item last, List.append_assoc, List.length_append]
    exact ⟨_, rfl, Text.endsNumber_cons _ (by decide), Nat.le_add_right ..⟩

/-- One item that is refused is enough for an array to be refused. -/
theorem readItems_eq_none {items : List Json}
    (each : ∀ item ∈ items, IsRead limit item ∨ IsRefused limit item)
    (one : ∃ item ∈ items, IsRefused limit item) (rest : Text)
    (enough : 2 * (printItems items).length + 1 ≤ fuel) :
    readItems true fuel limit (printItems items ++ Byte.closeBracket :: rest) = none := by
  induction items generalizing fuel with
  | nil => simp at one
  | cons item items ih =>
    obtain ⟨fuel, rfl⟩ := Nat.exists_eq_add_one.mpr (Nat.lt_of_lt_of_le (Nat.succ_pos _) enough)
    by_cases refused : IsRefused limit item
    · obtain ⟨behind, shape, ends, short⟩ := exists_behind_item item items rest
      rw [shape, readItems, refused fuel behind (by omega) ends]
      rfl
    · obtain ⟨first, others⟩ := List.forall_mem_cons.mp each
      have one : ∃ item ∈ items, IsRefused limit item := by simpa [refused] using one
      have nonempty : items ≠ [] := List.ne_nil_of_mem one.choose_spec.1
      rw [printItems_cons item nonempty] at enough ⊢
      rw [List.length_append, List.length_cons] at enough
      have read := first.resolve_right refused fuel
        (Byte.comma :: (printItems items ++ Byte.closeBracket :: rest)) (by omega)
        (Text.endsNumber_cons _ (by decide))
      have later := ih others one (by omega : 2 * (printItems items).length + 1 ≤ fuel)
      rw [List.append_assoc, List.cons_append, readItems, read]
      simp [token?_cons (b := Byte.comma) (by decide), later]

private theorem exists_behind_value (key : Text) (value : Json) (fields : List (Text × Json))
    (rest : Text) : ∃ behind : Text, printFields ((key, value) :: fields) ++ Byte.closeBrace :: rest =
      key.quoted ++ Byte.colon :: (value.print ++ behind) ∧ behind.EndsNumber ∧
        value.print.length ≤ (printFields ((key, value) :: fields)).length := by
  by_cases last : fields = []
  · subst last
    refine ⟨Byte.closeBrace :: rest, ?_, Text.endsNumber_cons rest (by decide), ?_⟩
    · rw [printFields, List.append_assoc, List.cons_append]
    · rw [printFields, List.length_append, List.length_cons]
      omega
  · refine ⟨Byte.comma :: (printFields fields ++ Byte.closeBrace :: rest), ?_,
      Text.endsNumber_cons _ (by decide), ?_⟩
    · rw [printFields_cons key value last, List.append_assoc, List.append_assoc, List.cons_append,
        List.cons_append]
    · rw [printFields_cons key value last, List.length_append, List.length_append, List.length_cons]
      omega

/-- One field whose value is refused is enough for an object to be refused. -/
theorem readFields_eq_none {fields : List (Text × Json)}
    (each : ∀ field ∈ fields, IsRead limit field.2 ∨ IsRefused limit field.2)
    (one : ∃ field ∈ fields, IsRefused limit field.2) (rest : Text)
    (enough : 2 * (printFields fields).length + 1 ≤ fuel) :
    readFields true fuel limit (printFields fields ++ Byte.closeBrace :: rest) = none := by
  induction fields generalizing fuel with
  | nil => simp at one
  | cons field fields ih =>
    obtain ⟨key, value⟩ := field
    obtain ⟨fuel, rfl⟩ := Nat.exists_eq_add_one.mpr (Nat.lt_of_lt_of_le (Nat.succ_pos _) enough)
    by_cases refused : IsRefused limit value
    · obtain ⟨behind, shape, ends, short⟩ := exists_behind_value key value fields rest
      have nothing := refused fuel behind (by omega) ends
      rw [shape, readFields, string_quoted_append]
      simp [token?_cons (b := Byte.colon) (by decide), nothing]
    · obtain ⟨first, others⟩ := List.forall_mem_cons.mp each
      have first : IsRead limit value := first.resolve_right refused
      have one : ∃ field ∈ fields, IsRefused limit field.2 := by
        obtain ⟨field, member, here⟩ := one
        rcases List.mem_cons.mp member with rfl | later
        · exact absurd here refused
        · exact ⟨field, later, here⟩
      have nonempty : fields ≠ [] := List.ne_nil_of_mem one.choose_spec.1
      rw [printFields_cons key value nonempty] at enough ⊢
      rw [List.length_append, List.length_append, List.length_cons, List.length_cons] at enough
      have read := first fuel (Byte.comma :: (printFields fields ++ Byte.closeBrace :: rest))
        (by omega) (Text.endsNumber_cons _ (by decide))
      have later := ih others one (by omega : 2 * (printFields fields).length + 1 ≤ fuel)
      rw [List.append_assoc, List.append_assoc, List.cons_append, List.cons_append, readFields,
        string_quoted_append]
      simp [token?_cons (b := Byte.colon) (by decide), read,
        token?_cons (b := Byte.comma) (by decide), later]

namespace IsRefused

/-- A reader that may open no level refuses every array and object. -/
theorem array_zero (items : List Json) : IsRefused 0 (array items) := by
  intro fuel rest _ _
  cases fuel <;> rfl

theorem object_zero (fields : List (Text × Json)) : IsRefused 0 (object fields) := by
  intro fuel rest _ _
  cases fuel <;> rfl

/-- An array is refused with one of its items. -/
theorem array {deeper : Nat} {items : List Json}
    (readable : ∀ item ∈ items, Readable deeper item)
    (each : ∀ item ∈ items, IsRead limit item ∨ IsRefused limit item)
    (one : ∃ item ∈ items, IsRefused limit item) : IsRefused (limit + 1) (array items) := by
  intro fuel rest enough _
  rw [print, List.cons_append, List.length_cons, List.length_append, List.length_singleton]
    at enough
  obtain ⟨fuel, rfl⟩ := Nat.exists_eq_add_one.mpr (by omega : 0 < fuel)
  obtain ⟨b, more, shape, visible, other⟩ :=
    exists_printItems_eq_cons (List.ne_nil_of_mem one.choose_spec.1) readable
  have opened : token? Byte.closeBracket (printItems items ++ Byte.closeBracket :: rest) = none := by
    rw [shape, List.cons_append]
    exact token?_cons_of_ne visible other _
  rw [print, List.cons_append, List.cons_append, List.append_assoc, List.singleton_append,
    read_openBracket, opened, readItems_eq_none each one rest (by omega)]
  rfl

/-- An object is refused with one of its values. -/
theorem object {fields : List (Text × Json)}
    (each : ∀ field ∈ fields, IsRead limit field.2 ∨ IsRefused limit field.2)
    (one : ∃ field ∈ fields, IsRefused limit field.2) : IsRefused (limit + 1) (object fields) := by
  intro fuel rest enough _
  rw [print, List.cons_append, List.length_cons, List.length_append, List.length_singleton]
    at enough
  obtain ⟨fuel, rfl⟩ := Nat.exists_eq_add_one.mpr (by omega : 0 < fuel)
  obtain ⟨more, shape⟩ := exists_printFields_eq_cons (List.ne_nil_of_mem one.choose_spec.1)
  have opened : token? Byte.closeBrace (printFields fields ++ Byte.closeBrace :: rest) = none := by
    rw [shape, List.cons_append]
    exact token?_cons_of_ne (by decide) (by decide) _
  rw [print, List.cons_append, List.cons_append, List.append_assoc, List.singleton_append,
    read_openBrace, opened, readFields_eq_none each one rest (by omega)]
  rfl

end IsRefused

private theorem Storable.isRead_or {value : Json} (storable : Storable value)
    (refused : limit < value.depth → IsRefused limit value) :
    IsRead limit value ∨ IsRefused limit value :=
  (Nat.lt_or_ge limit value.depth).symm.imp
    (fun shallow => (storable.readable shallow).isRead) refused

/-- A value is refused by a reader that may not go as deep. -/
theorem Storable.isRefused {value : Json} (storable : Storable value)
    (deep : limit < value.depth) : IsRefused limit value := by
  induction storable generalizing limit with
  | null | bool | integer | string => exact absurd deep (Nat.not_lt_zero limit)
  | @array items inside ih =>
    cases limit with
    | zero => exact .array_zero items
    | succ limit =>
      have one : ∃ item ∈ items, limit < item.depth := by
        have deepItem := mt depthItems_le_iff.mpr (Nat.not_le.mpr (Nat.lt_of_succ_lt_succ deep))
        simpa using deepItem
      refine .array (fun item member => (inside item member).readable
        (depthItems_le_iff.mp (Nat.le_refl _) item member))
        (fun item member => (inside item member).isRead_or (ih item member)) ?_
      exact one.imp fun item ⟨member, deep⟩ => ⟨member, ih item member deep⟩
  | @object fields rising inside ih =>
    cases limit with
    | zero => exact .object_zero fields
    | succ limit =>
      have one : ∃ field ∈ fields, limit < field.2.depth := by
        have deepField := mt depthFields_le_iff.mpr (Nat.not_le.mpr (Nat.lt_of_succ_lt_succ deep))
        simpa only [not_forall, Nat.not_le, exists_prop] using deepField
      refine .object (fun field member => (inside field member).isRead_or (ih field member)) ?_
      exact one.imp fun field ⟨member, deep⟩ => ⟨member, ih field member deep⟩

/-- A printed table with a value that is nested too deep is refused. -/
theorem tableReader_eq_none {table : Table Json}
    (storable : ∀ entry ∈ table.entries, Storable entry.2)
    (deep : limit < (object table.entries).depth) {rest : Text} (ends : rest.EndsNumber) :
    tableReader limit ((object table.entries).print ++ rest) = none := by
  have refused := (Storable.object table.rising storable).isRefused deep
    (3 * ((object table.entries).print ++ rest).length + 1) rest (by simp; omega) ends
  rw [tableReader, reader, refused]
  rfl

end Json

namespace RecordField

open Json

variable {α β : Type} {fields : List (RecordField α)} {depth : Nat} {draft : α}
  {printed : List (Text × Json)}

/-- Whether a reader of some printed fields comes to one whose value is refused, behind fields that
are read into a draft. -/
inductive Stuck (fields : List (RecordField α)) (depth : Nat) :
    (seen : List Text) → (draft : α) → (printed : List (Text × Json)) → Prop
  | here {seen : List Text} {draft : α} {printed : List (Text × Json)} {name : Text} {value : Json}
      {field : RecordField α} (known : find? fields name = some field)
      (refused : ∀ rest, Text.EndsNumber rest →
        field.read depth draft (value.print ++ rest) = none) :
      Stuck fields depth seen draft ((name, value) :: printed)
  | later {seen : List Text} {draft next : α} {printed : List (Text × Json)} {name : Text}
      {value : Json} {field : RecordField α} (known : find? fields name = some field)
      (read : ∀ rest, Text.EndsNumber rest →
        field.read depth draft (value.print ++ rest) = some (next, rest))
      (others : Stuck fields depth (name :: seen) next printed) :
      Stuck fields depth seen draft ((name, value) :: printed)

/-- Behind a field whose value is read by itself, a later one is refused. -/
theorem Stuck.behind {seen : List Text} {name : Text} {reader : (depth : Nat) → Reader β}
    {put : α → β → α} {value : Json} (content : β)
    (known : find? fields name = some (ofReader name reader put))
    (read : ∀ rest, Text.EndsNumber rest →
      reader depth (value.print ++ rest) = some (content, rest))
    (others : Stuck fields depth (name :: seen) (put draft content) printed) :
    Stuck fields depth seen draft ((name, value) :: printed) :=
  .later known (fun rest ends => by simp only [ofReader, read rest ends, Option.map_some]) others

/-- A field whose value is refused by itself is refused. -/
theorem Stuck.at {seen : List Text} {name : Text} {reader : (depth : Nat) → Reader β}
    {put : α → β → α} {value : Json}
    (known : find? fields name = some (ofReader name reader put))
    (refused : ∀ rest, Text.EndsNumber rest → reader depth (value.print ++ rest) = none) :
    Stuck fields depth seen draft ((name, value) :: printed) :=
  .here known fun rest ends => by simp only [ofReader, refused rest ends, Option.map_none]

theorem Stuck.ne_nil {seen : List Text} (stuck : Stuck fields depth seen draft printed) :
    printed ≠ [] := by
  cases stuck <;> exact List.cons_ne_nil _ _

private theorem readNamed_eq_none {seen : List Text} (stuck : Stuck fields depth seen draft printed)
    (limit : Nat) (rest : Text) :
    readNamed fields depth limit seen draft (printFields printed ++ Byte.closeBrace :: rest) =
      none := by
  induction stuck generalizing limit with
  | @here seen draft printed name value field known refused =>
    cases limit with
    | zero => rfl
    | succ limit =>
      obtain ⟨behind, shape, ends, -⟩ := exists_behind_value name value printed rest
      rw [shape, readNamed, string_quoted_append]
      simp [token?_cons (b := Byte.colon) (by decide), known, refused behind ends]
  | @later seen draft next printed name value field known read others ih =>
    cases limit with
    | zero => rfl
    | succ limit =>
      have here := read (Byte.comma :: (printFields printed ++ Byte.closeBrace :: rest))
        (Text.endsNumber_cons _ (by decide))
      rw [printFields_cons name value others.ne_nil, List.append_assoc, List.append_assoc,
        List.cons_append, List.cons_append, readNamed, string_quoted_append]
      simp [token?_cons (b := Byte.colon) (by decide), known, here,
        token?_cons (b := Byte.comma) (by decide), ih]

/-- A printed record is refused if the value of a field is. -/
theorem readRecord_eq_none {complete : α → Option β}
    (stuck : Stuck fields depth [] draft printed) (rest : Text) :
    readRecord fields draft complete (depth + 1) ((object printed).print ++ rest) = none := by
  have shape : (object printed).print ++ rest =
      Byte.openBrace :: (printFields printed ++ Byte.closeBrace :: rest) := by
    simp [print]
  obtain ⟨more, opened⟩ := exists_printFields_eq_cons stuck.ne_nil
  have inside : token? Byte.closeBrace (printFields printed ++ Byte.closeBrace :: rest) = none := by
    rw [opened, List.cons_append]
    exact token?_cons_of_ne (by decide) (by decide) _
  rw [shape, readRecord, token?_cons (by decide)]
  simp only [inside, readNamed_eq_none stuck, Option.bind_none]

end RecordField

end BareComponent
