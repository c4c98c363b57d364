import BareComponent.Pattern.Search
import BareComponent.SourceOrder
import BareComponent.Text.Bracket
import BareComponent.Text.Identifier
import BareComponent.Text.Mask

/-! # Top-level declarations

The names that a script body declares outside all brackets: those behind a declaring keyword, and
those that a destructuring declaration of one level binds. They are listed in source order and each
once. Names of temporaries that stand for imported modules are left out.
-/

namespace BareComponent.Declaration

/-- What the names of temporaries begin with. -/
def temporaryStem : Text := "__import_"

/-- A name behind a declaring keyword; answers where the name stands. -/
def single : Pattern Span := do
  Pattern.wordBoundary
  variableKeyword <|> functionKeyword <|> classKeyword
  Pattern.spanned Pattern.name
where
  /-- The keyword of a variable and the blanks behind it. -/
  variableKeyword : Pattern Unit := do
    Pattern.oneOf ["const", "let", "var"]
    Pattern.blanks1
  /-- The keyword of a function and what may stand between it and the name. -/
  functionKeyword : Pattern Unit := do
    Pattern.literal "function"
    Pattern.blanks
    let _ ← Pattern.optional (Pattern.literal "*")
    Pattern.blanks
  /-- The keyword of a class and the blanks behind it. -/
  classKeyword : Pattern Unit := do
    Pattern.literal "class"
    Pattern.blanks1

/-- A destructuring declaration through its equals sign; answers where the inside of its braces
stands. -/
def destructuring : Pattern Span := do
  Pattern.wordBoundary
  Pattern.oneOf ["const", "let", "var"]
  Pattern.blanks
  Pattern.literal [Byte.openBrace]
  let inside ← Pattern.spanned (Pattern.run (.noneOf [Byte.openBrace, Byte.closeBrace]))
  Pattern.literal [Byte.closeBrace]
  Pattern.blanks
  Pattern.literal "="
  pure inside

/-- The name that one entry of a destructuring declaration binds: what stands behind its last colon
and in front of its equals sign, without the dots of a rest. -/
def boundBy (entry : Text) : Text :=
  let target : Text := (entry.reverse.takeWhile (· != Byte.colon)).reverse
  ((Text.trim (target.takeWhile (· != Byte.equals))).dropCopies "...").trim

/-- The declarations of a mask that stand outside all brackets, each name with where its
declaration begins. -/
def found (masked : Text) : List (Nat × Text) :=
  let isOutside (start : Nat) : Bool := masked.depthAt start == 0
  let singles := ((single.search masked).filter fun found => isOutside found.span.start).map
    fun found => (found.span.start, masked.slice found.value)
  let destructured :=
    ((destructuring.search masked).filter fun found => isOutside found.span.start).flatMap
      fun found => ((masked.slice found.value).splitOn Byte.comma).map
        fun entry => (found.span.start, boundBy entry)
  singles ++ destructured

/-- The names that a script body declares at its top level. -/
def names (body : Text) : List Text :=
  ((SourceOrder.sort Prod.fst (found body.mask)).map Prod.snd
    |>.filter fun name => name.isIdentifier && !name.startsWith temporaryStem).eraseDups

end BareComponent.Declaration
