import BareComponent.Json.Record
import BareComponent.Proofs.Json.Printed

/-! # A printed record

A record is read field by field, each into what the fields before it left. What a run of printed
fields makes of a draft is a relation here, which asks of each field only that its own value is read
back; so a record that leaves fields out is read like one that has them all.
-/

namespace BareComponent

open Reader Json

namespace RecordField

variable {α β : Type}

/-- What some printed fields make of a draft. The fields are known, none is given twice, and each
value is read back by itself. -/
inductive Fills (fields : List (RecordField α)) (depth : Nat) :
    (seen : List Text) → (draft : α) → (printed : List (Text × Json)) → (final : α) → Prop
  | nil {seen : List Text} {draft : α} : Fills fields depth seen draft [] draft
  | cons {seen : List Text} {draft next final : α} {printed : List (Text × Json)} {name : Text}
      {value : Json} {field : RecordField α} (known : find? fields name = some field)
      (fresh : name ∉ seen)
      (read : ∀ rest, Text.EndsNumber rest →
        field.read depth draft (value.print ++ rest) = some (next, rest))
      (others : Fills fields depth (name :: seen) next printed final) :
      Fills fields depth seen draft ((name, value) :: printed) final

variable {fields : List (RecordField α)} {depth : Nat} {draft final : α}
  {printed : List (Text × Json)}

/-- A field whose value is read by itself is filled with what was read. -/
theorem Fills.put {seen : List Text} {name : Text} {reader : (depth : Nat) → Reader β}
    {put : α → β → α} {value : Json} (content : β)
    (known : find? fields name = some (ofReader name reader put)) (fresh : name ∉ seen)
    (read : ∀ rest, Text.EndsNumber rest →
      reader depth (value.print ++ rest) = some (content, rest))
    (others : Fills fields depth (name :: seen) (put draft content) printed final) :
    Fills fields depth seen draft ((name, value) :: printed) final :=
  .cons known fresh (fun rest ends => by simp only [ofReader, read rest ends, Option.map_some])
    others

private theorem readNamed_printFields {seen : List Text}
    (fills : Fills fields depth seen draft printed final) (nonempty : printed ≠ []) (rest : Text)
    {limit : Nat} (enough : printed.length ≤ limit) :
    readNamed fields depth limit seen draft (printFields printed ++ Byte.closeBrace :: rest) =
      some (final, rest) := by
  induction fills generalizing limit with
  | nil => exact absurd rfl nonempty
  | @cons seen draft next final printed name value field known fresh read others ih =>
    obtain ⟨limit, rfl⟩ := Nat.exists_eq_add_one.mpr (Nat.lt_of_lt_of_le (by simp) enough)
    by_cases last : printed = []
    · subst last
      cases others
      have here := read (Byte.closeBrace :: rest) (Text.endsNumber_cons rest (by decide))
      rw [printFields, List.append_assoc, List.cons_append, readNamed, string_quoted_append]
      simp [token?_cons (b := Byte.colon) (by decide), known, fresh, here,
        token?_cons_of_ne (b := Byte.comma) (c := Byte.closeBrace) (by decide) (by decide),
        token?_cons (b := Byte.closeBrace) (by decide)]
    · have here := read (Byte.comma :: (printFields printed ++ Byte.closeBrace :: rest))
        (Text.endsNumber_cons _ (by decide))
      have shorter : printed.length ≤ limit := Nat.le_of_succ_le_succ enough
      have later := ih last shorter
      rw [printFields_cons name value last, List.append_assoc, List.append_assoc,
        List.cons_append, List.cons_append, readNamed, string_quoted_append]
      simp [token?_cons (b := Byte.colon) (by decide), known, fresh, here,
        token?_cons (b := Byte.comma) (by decide), later]

private theorem length_le_printFields (printed : List (Text × Json)) :
    printed.length ≤ (printFields printed).length := by
  induction printed with
  | nil => exact Nat.le_refl _
  | cons field printed ih =>
    obtain ⟨name, value⟩ := field
    by_cases last : printed = []
    · subst last
      simp [printFields, Text.quoted]
    · rw [printFields_cons name value last]
      simp only [List.length_append, List.length_cons]
      omega

/-- A printed record is read as what its fields make of the draft that a reader begins with,
whatever follows it. -/
theorem readRecord_print {complete : α → Option β} {value : β}
    (fills : Fills fields depth [] draft printed final) (done : complete final = some value)
    (rest : Text) :
    readRecord fields draft complete (depth + 1) ((object printed).print ++ rest) =
      some (value, rest) := by
  have shape : (object printed).print ++ rest =
      Byte.openBrace :: (printFields printed ++ Byte.closeBrace :: rest) := by
    simp [print]
  rw [shape, readRecord, token?_cons (by decide)]
  by_cases nothing : printed = []
  · subst nothing
    cases fills
    rw [printFields, List.nil_append]
    simp [token?_cons (b := Byte.closeBrace) (by decide), done]
  · obtain ⟨more, opened⟩ := exists_printFields_eq_cons nothing
    have inside : token? Byte.closeBrace (printFields printed ++ Byte.closeBrace :: rest) =
        none := by
      rw [opened, List.cons_append]
      exact token?_cons_of_ne (by decide) (by decide) _
    have enough : printed.length ≤ (printFields printed ++ Byte.closeBrace :: rest).length := by
      have := length_le_printFields printed
      rw [List.length_append]
      omega
    simp only [inside, readNamed_printFields fills nothing rest enough, Option.bind_some, done,
      Option.map_some]

end RecordField

end BareComponent
