import BareComponent.Text.Character

/-! # Blank characters

The characters with the Unicode property `White_Space`, and the trimming that goes by them.
Skipping to the next token goes by the five ASCII blanks alone.
-/

namespace BareComponent

/-- The characters with the property `White_Space`. -/
def CharacterClass.blank : CharacterClass := fun code =>
  (0x9 ≤ code && code ≤ 0xd) || code == 0x20 || code == 0x85 || code == 0xa0 || code == 0x1680 ||
    (0x2000 ≤ code && code ≤ 0x200a) || code == 0x2028 || code == 0x2029 || code == 0x202f ||
    code == 0x205f || code == 0x3000

namespace Text

/-- The text without the blanks that it begins with. -/
def trimStart (text : Text) : Text := trimStartOf CharacterClass.blank text

/-- The text without the blanks that it ends with. -/
def trimEnd (text : Text) : Text := trimEndOf CharacterClass.blank text

def trim (text : Text) : Text := trimEnd (trimStart text)

/-- The first offset at or after `position` whose byte is no ASCII blank, or the length of the text
if there is none. -/
def skipBlanks (text : Text) (position : Nat) : Nat :=
  min text.length (position + ((text.drop position).takeWhile Byte.isBlank).length)

end Text

end BareComponent
