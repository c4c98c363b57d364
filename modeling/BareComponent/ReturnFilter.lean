import BareComponent.Pattern.Search
import BareComponent.Table
import BareComponent.Text.Bracket
import BareComponent.Text.Mask

/-! # Filtering return objects

A return object is an object literal behind `return`. Its entries are the pieces between its
top-level commas, and the key of an entry is what stands in front of its first top-level colon, or
the whole entry if it has none. Filtering drops the entries whose keys are in a set of names, and
filters the return objects inside the entries it keeps. Where it drops something, it keeps the
blanks at both ends of the object; elsewhere it copies the text through.

What is code is told by the mask, which is cut along with the text.
-/

namespace BareComponent.ReturnFilter

/-- The beginning of a return object through its opening brace. -/
def head : Pattern Unit := do
  Pattern.wordBoundary
  Pattern.literal "return"
  Pattern.blanks
  Pattern.literal [Byte.openBrace]

/-- Goes through the beginnings of return objects and answers the insides of those that are closed,
leaving out each that begins in front of `start`, the end of the object before it. -/
def closedFrom (masked : Text) (start : Nat) : List (Match Unit) → List Span
  | [] => []
  | found :: rest =>
    if found.span.start < start then closedFrom masked start rest
    else
      match masked.closingOf? (found.span.stop - 1) with
      | none => closedFrom masked start rest
      | some closing => ⟨found.span.stop, closing⟩ :: closedFrom masked closing rest

/-- The insides of the outermost closed return objects of a mask. -/
def objects (masked : Text) : List Span := closedFrom masked 0 (head.search masked)

def keyOf (masked : Text) : Text :=
  Text.trim (masked.take ((masked.topLevelIndexOf? Byte.colon).getD masked.length))

def leadingBlanks (text : Text) : Text := text.take (text.length - text.trimStart.length)

def trailingBlanks (text : Text) : Text := text.drop text.trimEnd.length

/-- The inside of a return object whose remaining entries are given. -/
def assemble (content : Text) (anyDropped : Bool) (kept : List Text) : Text :=
  let joined := Text.join [Byte.comma] kept
  if anyDropped then leadingBlanks content ++ joined.trim ++ trailingBlanks content else joined

mutual

/-- Filters the return objects of a text. The fuel bounds how deep they are nested; a text needs no
more of it than its length and one. -/
def filterText (names : NameSet) : (fuel : Nat) → (text masked : Text) → Text
  | 0, text, _ => text
  | fuel + 1, text, masked =>
    text.replace <| (objects masked).map fun object =>
      (object, filterObject names fuel (text.slice object) (masked.slice object))

/-- Filters the entries of a return object, given by its inside. -/
def filterObject (names : NameSet) : (fuel : Nat) → (content masked : Text) → Text
  | 0, content, _ => content
  | fuel + 1, content, masked =>
    let entries := masked.topLevelPieces Byte.comma
    let kept := entries.filter fun entry => !names.hasKey (keyOf (masked.slice entry))
    assemble content (kept.length != entries.length) <| kept.map fun entry =>
      filterText names fuel (content.slice entry) (masked.slice entry)

end

/-- The script without those entries of its return objects whose keys are in a set of names. -/
def apply (names : NameSet) (script : Text) : Text :=
  if names.isEmpty then script else filterText names (script.length + 1) script script.mask

end BareComponent.ReturnFilter
