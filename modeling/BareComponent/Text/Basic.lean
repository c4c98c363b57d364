import BareComponent.Text.Byte

/-! # Text and spans

A text is the list of its UTF-8 bytes, and every position is an offset into that list. A span cuts
a piece out of a text by its two offsets; a piece cut from a text and the piece cut by the same span
from another text of equal length stand at the same place. The searches of this module look for a
fixed piece of text.
-/

namespace BareComponent

/-- Text as its UTF-8 bytes. -/
abbrev Text := List UInt8

/-- A stretch of text: the offset of its first byte and the offset just past its last. -/
structure Span where
  start : Nat
  stop : Nat
deriving DecidableEq, Repr, Inhabited

/-- The same stretch seen from a text that has `count` more bytes in front. -/
def Span.shift (span : Span) (count : Nat) : Span := ⟨span.start + count, span.stop + count⟩

namespace Text

def ofString (string : String) : Text := string.toList.flatMap String.utf8EncodeChar

instance : Coe String Text := ⟨ofString⟩

/-- The string whose UTF-8 bytes these are, if there is one. -/
def toString? (text : Text) : Option String := String.fromUTF8? text.toByteArray

def slice (text : Text) (span : Span) : Text := (text.take span.stop).drop span.start

/-- What is left of the text after `needle`, if it begins with it. -/
def after? : (text needle : Text) → Option Text
  | text, [] => some text
  | [], _ :: _ => none
  | b :: text, n :: needle => if b = n then after? text needle else none

def startsWith (text needle : Text) : Bool := (after? text needle).isSome

def endsWith (text needle : Text) : Bool := startsWith text.reverse needle.reverse

def indexOf? : (text needle : Text) → Option Nat
  | [], needle => if needle = [] then some 0 else none
  | b :: rest, needle =>
    if startsWith (b :: rest) needle then some 0 else (indexOf? rest needle).map (· + 1)

def lastIndexOf? : (text needle : Text) → Option Nat
  | [], needle => if needle = [] then some 0 else none
  | b :: rest, needle =>
    match lastIndexOf? rest needle with
    | some offset => some (offset + 1)
    | none => if startsWith (b :: rest) needle then some 0 else none

/-- Whether `needle` occurs anywhere in the text. -/
def contains (text needle : Text) : Bool := (indexOf? text needle).isSome

/-- The parts before and after the first occurrence of `needle`. -/
def cut? (text needle : Text) : Option (Text × Text) :=
  (indexOf? text needle).map fun offset => (text.take offset, text.drop (offset + needle.length))

/-- The text without the copies of `needle` that it begins with, at most `limit` of them. -/
def dropCopiesUpTo (needle : Text) : (limit : Nat) → Text → Text
  | 0, text => text
  | limit + 1, text =>
    match after? text needle with
    | some rest => dropCopiesUpTo needle limit rest
    | none => text

/-- The text without the copies of `needle` that it begins with. -/
def dropCopies (text needle : Text) : Text := dropCopiesUpTo needle text.length text

/-- Pieces put together with `separator` between neighbours. -/
def join (separator : Text) : List Text → Text
  | [] => []
  | [piece] => piece
  | piece :: next :: pieces => piece ++ separator ++ join separator (next :: pieces)

/-- Order by bytes, which for UTF-8 is the order by code points. -/
def compareBytes : Text → Text → Ordering
  | [], [] => .eq
  | [], _ :: _ => .lt
  | _ :: _, [] => .gt
  | a :: left, b :: right =>
    if a < b then .lt else if b < a then .gt else compareBytes left right

end Text

end BareComponent
