import BareComponent.Text.Word
import BareComponent.Text.Blank

/-! # Patterns

A pattern answers every way in which it can match at a cursor, the preferred way first, each with
the value it read and the cursor behind it. Sequencing keeps that order, so the head of the list is
the match that a backtracking search settles on. A greedy repetition prefers to take more, a lazy
one prefers to take less, and of two alternatives the first is preferred.

Only single characters are ever repeated. A run takes all characters of a class that come next and
gives none of them back, which loses no match where whatever follows it must begin outside the
class.
-/

namespace BareComponent

/-- A place in a text: the bytes in front of it, nearest first, and the bytes behind it. -/
structure Cursor where
  before : Text
  after : Text
deriving DecidableEq, Repr

namespace Cursor

def ofText (text : Text) : Cursor := ⟨[], text⟩

def position (cursor : Cursor) : Nat := cursor.before.length

def advance (cursor : Cursor) (count : Nat) : Cursor :=
  ⟨(cursor.after.take count).reverse ++ cursor.before, cursor.after.drop count⟩

/-- The cursors reached by passing none, one, two and more characters of a class, at most `limit`
of them. -/
def passing (members : CharacterClass) : (limit : Nat) → Cursor → List Cursor
  | 0, cursor => [cursor]
  | limit + 1, cursor =>
    match Text.leadingWidth members cursor.after with
    | 0 => [cursor]
    | count + 1 => cursor :: passing members limit (cursor.advance (count + 1))

/-- The cursors reached by passing characters of a class, the nearest first. -/
def within (members : CharacterClass) (cursor : Cursor) : List Cursor :=
  passing members cursor.after.length cursor

/-- The cursor behind the characters of a class that come next, at most `limit` of them. -/
def skipUpTo (members : CharacterClass) : (limit : Nat) → Cursor → Cursor
  | 0, cursor => cursor
  | limit + 1, cursor =>
    match Text.leadingWidth members cursor.after with
    | 0 => cursor
    | count + 1 => skipUpTo members limit (cursor.advance (count + 1))

/-- The cursor behind all characters of a class that come next. -/
def skip (members : CharacterClass) (cursor : Cursor) : Cursor :=
  skipUpTo members cursor.after.length cursor

end Cursor

/-- All ways to match at a cursor, in order of preference. -/
def Pattern (α : Type) := Cursor → List (α × Cursor)

namespace Pattern

variable {α β : Type}

instance : Monad Pattern where
  pure value := fun cursor => [(value, cursor)]
  bind pattern next := fun cursor =>
    (pattern cursor).flatMap fun (value, cursor) => next value cursor

instance : OrElse (Pattern α) where
  orElse first second := fun cursor => first cursor ++ second () cursor

/-- Succeeds without consuming anything where `holds` is true. -/
def check (holds : Cursor → Bool) : Pattern Unit := fun cursor =>
  if holds cursor then [((), cursor)] else []

def literal (text : Text) : Pattern Unit := fun cursor =>
  if cursor.after.startsWith text then [((), cursor.advance text.length)] else []

/-- Matches the first of some fixed pieces of text that leads to a match. -/
def oneOf (texts : List Text) : Pattern Unit := fun cursor =>
  texts.flatMap fun text => literal text cursor

def character (members : CharacterClass) : Pattern Unit := fun cursor =>
  match Text.leadingWidth members cursor.after with
  | 0 => []
  | count + 1 => [((), cursor.advance (count + 1))]

/-- Matches all characters of a class that come next, which may be none. -/
def run (members : CharacterClass) : Pattern Unit := fun cursor => [((), cursor.skip members)]

/-- Matches all characters of a class that come next, of which there must be one. -/
def run1 (members : CharacterClass) : Pattern Unit := do
  character members
  run members

/-- Matches any number of characters of a class, preferring more. -/
def many (members : CharacterClass) : Pattern Unit := fun cursor =>
  (cursor.within members).reverse.map ((), ·)

/-- Matches one or more characters of a class, preferring more. -/
def many1 (members : CharacterClass) : Pattern Unit := do
  character members
  many members

/-- Matches any number of characters of a class, preferring fewer. -/
def fewest (members : CharacterClass) : Pattern Unit := fun cursor =>
  (cursor.within members).map ((), ·)

/-- Matches everything in front of the next `closing`, which must come. -/
def upTo (closing : Text) : Pattern Unit := fun cursor =>
  match cursor.after.indexOf? closing with
  | some count => [((), cursor.advance count)]
  | none => []

/-- Matches the pattern if it can, and nothing otherwise. -/
def optional (pattern : Pattern α) : Pattern (Option α) := fun cursor =>
  (pattern cursor).map (fun (value, cursor) => (some value, cursor)) ++ [(none, cursor)]

/-- Matches what the pattern matches and answers where that stands. -/
def spanned (pattern : Pattern Unit) : Pattern Span := fun cursor =>
  (pattern cursor).map fun (_, next) => (⟨cursor.position, next.position⟩, next)

/-- Matches all blanks that come next, which may be none. -/
def blanks : Pattern Unit := run CharacterClass.blank

/-- Matches all blanks that come next, of which there must be one. -/
def blanks1 : Pattern Unit := run1 CharacterClass.blank

/-- Succeeds between a word character and a character that is none, and at an end of the text that
has a word character. -/
def wordBoundary : Pattern Unit := check fun cursor =>
  (Text.trailingWidth CharacterClass.word cursor.before != 0) !=
    (Text.leadingWidth CharacterClass.word cursor.after != 0)

def textStart : Pattern Unit := check (·.before.isEmpty)

def textEnd : Pattern Unit := check (·.after.isEmpty)

def lineStart : Pattern Unit := check fun cursor =>
  match cursor.before with
  | [] => true
  | b :: _ => b == Byte.newline

/-- A name as code spells it: an ASCII letter, an underscore or a dollar sign, and then word
characters and dollar signs. -/
def name : Pattern Unit := do
  character (.ofByte Byte.startsIdentifier)
  run .wordOrDollar

end Pattern

end BareComponent
