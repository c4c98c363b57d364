import BareComponent.Text.Basic

/-! # Plain identifiers

An identifier that ASCII alone can spell: a letter, an underscore or a dollar sign, and then any
number of those and digits.
-/

namespace BareComponent.Text

/-- Whether the whole text is one plain identifier. -/
def isIdentifier : Text → Bool
  | [] => false
  | b :: rest => Byte.startsIdentifier b && rest.all Byte.continuesIdentifier

end BareComponent.Text
