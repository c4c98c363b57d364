import BareComponent.Json.Reader

/-! # Reading records

A record with known fields is read from an object, or from an array that gives the fields in their
order and may leave out the last ones. In an object, a field that is not known is passed over and
one that is given twice is refused. What was read so far is kept in a draft, and a last step says
whether the draft is complete.
-/

namespace BareComponent

/-- A known field: its name, and how to read its value into a draft. A reader of a value is told
how many levels it may open. -/
structure RecordField (α : Type) where
  name : Text
  read : (depth : Nat) → α → Reader α

namespace RecordField

variable {α β : Type}

/-- A field whose value is read by itself and then put into the draft. -/
def ofReader (name : Text) (reader : (depth : Nat) → Reader β) (put : α → β → α) :
    RecordField α :=
  ⟨name, fun depth draft text =>
    (reader depth text).map fun (value, rest) => (put draft value, rest)⟩

def find? (fields : List (RecordField α)) (name : Text) : Option (RecordField α) :=
  List.find? (fun field => field.name == name) fields

/-- Reads the fields of an object and the brace behind them, at most `limit` of them. `seen` holds
the names of the known fields read before. -/
def readNamed (fields : List (RecordField α)) (depth : Nat) :
    (limit : Nat) → (seen : List Text) → (draft : α) → Reader α
  | 0, _, _, _ => none
  | limit + 1, seen, draft, text => do
    let (name, rest) ← Reader.string true text
    let rest ← Reader.token? Byte.colon rest
    let (draft, seen, rest) ←
      match find? fields name with
      | some field =>
        if name ∈ seen then none
        else (field.read depth draft rest).map fun (draft, rest) => (draft, name :: seen, rest)
      | none => (Json.skip rest).map fun (_, rest) => (draft, seen, rest)
    match Reader.token? Byte.comma rest with
    | some rest => readNamed fields depth limit seen draft rest
    | none =>
      let rest ← Reader.token? Byte.closeBrace rest
      some (draft, rest)

/-- Reads fields in their order, each behind a comma, and the bracket behind them. -/
def readInOrder (depth : Nat) : List (RecordField α) → (draft : α) → Reader α
  | [], draft, text => (Reader.token? Byte.closeBracket text).map (draft, ·)
  | field :: fields, draft, text =>
    match Reader.token? Byte.closeBracket text with
    | some rest => some (draft, rest)
    | none => do
      let rest ← Reader.token? Byte.comma text
      let (draft, rest) ← field.read depth draft rest
      readInOrder depth fields draft rest

/-- Reads a record that opens at most `depth` levels. -/
def readRecord (fields : List (RecordField α)) (draft : α) (complete : α → Option β) :
    (depth : Nat) → Reader β
  | 0, _ => none
  | depth + 1, text =>
    let found :=
      match Reader.token? Byte.openBrace text with
      | some rest =>
        match Reader.token? Byte.closeBrace rest with
        | some rest => some (draft, rest)
        | none => readNamed fields depth rest.length [] draft rest
      | none => do
        let rest ← Reader.token? Byte.openBracket text
        match Reader.token? Byte.closeBracket rest, fields with
        | some rest, _ => some (draft, rest)
        | none, [] => none
        | none, field :: fields =>
          let (draft, rest) ← field.read depth draft rest
          readInOrder depth fields draft rest
    found.bind fun (draft, rest) => (complete draft).map (·, rest)

end RecordField

end BareComponent
