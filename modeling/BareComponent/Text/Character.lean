import BareComponent.Text.Basic

/-! # Characters in text

A character takes one to four bytes, and its first byte tells how many. The definitions here read
the character at the front or at the back of a well-formed text and say which offsets lie between
two characters. A class is a set of code points; `leadingWidth` and `trailingWidth` measure a
character of a class at either end of a text, and answer zero where there is none.
-/

namespace BareComponent

/-- A set of characters, given by their code points. -/
abbrev CharacterClass := Nat → Bool

namespace CharacterClass

/-- The characters of an ASCII text. -/
def oneOf (characters : Text) : CharacterClass := fun code => characters.any (·.toNat == code)

/-- All characters but those of an ASCII text. -/
def noneOf (characters : Text) : CharacterClass := fun code => !oneOf characters code

def or (left right : CharacterClass) : CharacterClass := fun code => left code || right code

/-- The ASCII characters whose byte satisfies a predicate. -/
def ofByte (accepts : UInt8 → Bool) : CharacterClass := fun code =>
  code < 0x80 && accepts code.toUInt8

end CharacterClass

namespace Text

/-- How many bytes a character takes, read off its first byte. -/
def characterWidth (lead : UInt8) : Nat :=
  if lead < 0xc0 then 1 else if lead < 0xe0 then 2 else if lead < 0xf0 then 3 else 4

/-- The part of a character's code point that its first byte carries. -/
def leadPayload (lead : UInt8) : Nat :=
  match characterWidth lead with
  | 1 => lead.toNat
  | 2 => lead.toNat % 0x20
  | 3 => lead.toNat % 0x10
  | _ => lead.toNat % 0x08

/-- The code point and the width of the character that a text begins with. Each byte after the
first carries six bits. -/
def firstCharacter? : Text → Option (Nat × Nat)
  | [] => none
  | lead :: rest =>
    let width := characterWidth lead
    let code := (rest.take (width - 1)).foldl (fun code b => code * 64 + b.toNat % 64)
      (leadPayload lead)
    some (code, width)

/-- The code point and the width of the character that a text ends with; the text is given with
its bytes reversed. -/
def lastCharacter? (reversed : Text) : Option (Nat × Nat) :=
  let width := (reversed.takeWhile Byte.continuesCharacter).length + 1
  (firstCharacter? (reversed.take width).reverse).map fun (code, _) => (code, width)

/-- Width of the first character if it belongs to the class, and zero otherwise. -/
def leadingWidth (members : CharacterClass) (text : Text) : Nat :=
  match firstCharacter? text with
  | some (code, width) => if members code then width else 0
  | none => 0

/-- Width of the last character of a reversed text if it belongs to the class, and zero
otherwise. -/
def trailingWidth (members : CharacterClass) (reversed : Text) : Nat :=
  match lastCharacter? reversed with
  | some (code, width) => if members code then width else 0
  | none => 0

/-- Drops pieces from the front of a text for as long as `width` measures one, at most `limit`
of them. -/
def dropMeasured (width : Text → Nat) : (limit : Nat) → Text → Text
  | 0, text => text
  | limit + 1, text =>
    match width text with
    | 0 => text
    | count + 1 => dropMeasured width limit (text.drop (count + 1))

/-- The text without the characters of a class that it begins with. -/
def trimStartOf (members : CharacterClass) (text : Text) : Text :=
  dropMeasured (leadingWidth members) text.length text

/-- The text without the characters of a class that it ends with. -/
def trimEndOf (members : CharacterClass) (text : Text) : Text :=
  (dropMeasured (trailingWidth members) text.length text.reverse).reverse

/-- The first offset at or after `position` that does not fall inside a character. -/
def characterBoundary (text : Text) (position : Nat) : Nat :=
  min text.length
    (position + ((text.drop position).takeWhile Byte.continuesCharacter).length)

end Text

end BareComponent
