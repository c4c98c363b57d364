import BareComponent.Pattern.Basic

/-! # Searching a text for a pattern

A search reads a text from left to right, settles at each character on the preferred way to match,
and goes on behind the match, so that matches never overlap and never begin inside a character. A
match that consumes nothing does not count.
-/

namespace BareComponent

/-- A match found in a text: where it stands and what was read there. -/
structure Match (α : Type) where
  span : Span
  value : α
deriving Repr, DecidableEq

namespace Pattern

variable {α : Type}

/-- The preferred match at a cursor, if it consumes anything. -/
def matchAt? (pattern : Pattern α) (cursor : Cursor) : Option (Match α) :=
  match pattern cursor with
  | [] => none
  | (value, next) :: _ =>
    if cursor.position < next.position then some ⟨⟨cursor.position, next.position⟩, value⟩ else none

/-- The matches in the rest of a text whose first bytes, in reverse, are `before`. The next `skip`
bytes belong to a match already found. A byte that continues a character begins no match. -/
def searchFrom (pattern : Pattern α) (skip : Nat) (before : Text) : Text → List (Match α)
  | [] => []
  | b :: rest =>
    match skip with
    | skip + 1 => searchFrom pattern skip (b :: before) rest
    | 0 =>
      if Byte.continuesCharacter b then searchFrom pattern 0 (b :: before) rest
      else
        match matchAt? pattern ⟨before, b :: rest⟩ with
        | none => searchFrom pattern 0 (b :: before) rest
        | some found =>
          found :: searchFrom pattern (found.span.stop - found.span.start - 1) (b :: before) rest

def search (pattern : Pattern α) (text : Text) : List (Match α) := searchFrom pattern 0 [] text

def find? (pattern : Pattern α) (text : Text) : Option (Match α) := (search pattern text).head?

end Pattern

/-- The text with each span of a rising list replaced by the text that goes with it. `start` is
where copying begins. -/
def Text.replaceFrom (text : Text) (start : Nat) : List (Span × Text) → Text
  | [] => text.drop start
  | (span, replacement) :: edits =>
    text.slice ⟨start, span.start⟩ ++ replacement ++ replaceFrom text span.stop edits

/-- The text with each span of a rising list of disjoint spans replaced by the text that goes
with it. -/
def Text.replace (text : Text) (edits : List (Span × Text)) : Text := text.replaceFrom 0 edits

end BareComponent
