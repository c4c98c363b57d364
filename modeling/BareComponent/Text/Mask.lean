import BareComponent.Text.Basic

/-! # Masking literals and comments

A mask is a text of the same length in which the contents of strings, templates and comments are
blanked, so that what is left visible is code. Newlines stay where they are. Quotes and backticks
stay visible, comment delimiters do not, and neither do the delimiters of an interpolation, whose
code is masked like any other.

A quoted string ends at a newline that no backslash precedes, which keeps a stray apostrophe in
markup from hiding the rest of the text. Regular expressions are not recognised.

Each masking function answers the masked form of what it consumed and the rest of the text, and the
two together are as long as what it was given.
-/

namespace BareComponent

/-- What stands for a hidden byte: the newline for itself, a space for any other. -/
def Byte.blanked (b : UInt8) : UInt8 := if b = newline then newline else space

namespace Text

def blanked (text : Text) : Text := text.map Byte.blanked

/-- Masks a string from just after its opening quote. A backslash hides the byte that follows it
too, whichever that is; a newline ends the string and is not part of it. -/
def maskQuoted (quote : UInt8) : Text → Text × Text
  | [] => ([], [])
  | b :: rest =>
    if b = Byte.backslash then
      match rest with
      | [] => ([Byte.space], [])
      | escaped :: rest =>
        let (masked, rest) := maskQuoted quote rest
        (Byte.space :: Byte.blanked escaped :: masked, rest)
    else if b = Byte.newline then ([], b :: rest)
    else if b = quote then ([quote], rest)
    else
      let (masked, rest) := maskQuoted quote rest
      (Byte.space :: masked, rest)

/-- Masks a comment that ends before the next newline. -/
def maskLineComment (text : Text) : Text × Text :=
  (blanked (text.takeWhile (· != Byte.newline)), text.dropWhile (· != Byte.newline))

/-- Masks a comment through its closing delimiter, from just after its opening one. -/
def maskBlockComment : Text → Text × Text
  | [] => ([], [])
  | b :: rest =>
    if b = Byte.asterisk ∧ rest.head? = some Byte.slash then ([Byte.space, Byte.space], rest.tail)
    else
      let (masked, rest) := maskBlockComment rest
      (Byte.blanked b :: masked, rest)

/-- The braces open in an interpolation after one more byte of its code. -/
def bracesAfter (braces : Option Nat) (b : UInt8) : Option Nat :=
  braces.map fun count =>
    if b = Byte.openBrace then count + 1 else if b = Byte.closeBrace then count - 1 else count

mutual

/-- Masks code. Inside an interpolation `braces` counts the braces open in it, and the code ends
before the brace that closes the interpolation. The fuel bounds the number of steps; a text needs
no more of it than its length and one. -/
def maskCode : (fuel : Nat) → (braces : Option Nat) → Text → Text × Text
  | 0, _, text => ([], text)
  | _ + 1, _, [] => ([], [])
  | fuel + 1, braces, b :: rest =>
    if b = Byte.singleQuote ∨ b = Byte.doubleQuote then
      let (literal, rest) := maskQuoted b rest
      let (masked, rest) := maskCode fuel braces rest
      (b :: literal ++ masked, rest)
    else if b = Byte.backtick then
      let (literal, rest) := maskTemplate fuel rest
      let (masked, rest) := maskCode fuel braces rest
      (b :: literal ++ masked, rest)
    else if b = Byte.slash ∧ rest.head? = some Byte.slash then
      let (comment, rest) := maskLineComment (b :: rest)
      let (masked, rest) := maskCode fuel braces rest
      (comment ++ masked, rest)
    else if b = Byte.slash ∧ rest.head? = some Byte.asterisk then
      let (comment, rest) := maskBlockComment rest.tail
      let (masked, rest) := maskCode fuel braces rest
      (Byte.space :: Byte.space :: comment ++ masked, rest)
    else if b = Byte.closeBrace ∧ braces = some 0 then ([], b :: rest)
    else
      let (masked, rest) := maskCode fuel (bracesAfter braces b) rest
      (b :: masked, rest)

/-- Masks a template from just after its opening backtick through its closing one. -/
def maskTemplate : (fuel : Nat) → Text → Text × Text
  | 0, text => ([], text)
  | _ + 1, [] => ([], [])
  | fuel + 1, b :: rest =>
    if b = Byte.backslash then
      let (masked, after) := maskTemplate fuel rest.tail
      (Byte.space :: blanked (rest.take 1) ++ masked, after)
    else if b = Byte.backtick then ([b], rest)
    else if b = Byte.dollar ∧ rest.head? = some Byte.openBrace then
      let (code, after) := maskCode fuel (some 0) rest.tail
      let (masked, after') := maskTemplate fuel after.tail
      (Byte.space :: Byte.space :: code ++ blanked (after.take 1) ++ masked, after')
    else
      let (masked, rest) := maskTemplate fuel rest
      (Byte.blanked b :: masked, rest)

end

def mask (text : Text) : Text := (maskCode (text.length + 1) none text).1

end Text

end BareComponent
