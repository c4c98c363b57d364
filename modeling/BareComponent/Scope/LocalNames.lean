import BareComponent.Scope.FunctionBody
import BareComponent.Table
import BareComponent.Text.Identifier
import BareComponent.Text.Mask

/-! # Local names

A name is local if some function body of a source declares it or assigns to it, or if an arrow
function takes it out of its parameter. The names of all functions make up one set. Style blocks
hold no code and are hidden before anything is looked for.
-/

namespace BareComponent.LocalNames

def styleBlock : Pattern Unit := do
  Pattern.literal "<style"
  Pattern.wordBoundary
  Pattern.run (.noneOf ">")
  Pattern.literal ">"
  Pattern.upTo "</style>"
  Pattern.literal "</style>"

/-- The source with its style blocks hidden; newlines stay. -/
def hideStyles (source : Text) : Text :=
  source.replace <| (styleBlock.search source).map fun found =>
    (found.span, (source.slice found.span).blanked)

/-- A declaration with a value, through the equals sign; answers where its name stands. -/
def declaration : Pattern Span := do
  Pattern.wordBoundary
  Pattern.oneOf ["var", "let", "const"]
  Pattern.blanks1
  let name ← Pattern.spanned Pattern.name
  Pattern.blanks
  Pattern.literal "="
  pure name

/-- A name and an equals sign; answers where the name stands. -/
def assignment : Pattern Span := do
  let name ← Pattern.spanned Pattern.name
  Pattern.blanks
  Pattern.literal "="
  pure name

/-- Whether what stands at a span of a body is an assignment to a name: it does not continue a
longer name, is no property, and is no comparison. -/
def isAssignment (body : Text) (span : Span) : Bool :=
  let before := (body.take span.start).getLast?
  !before.any (fun b => Byte.continuesIdentifier b || b == Byte.dot) &&
    body[span.stop]? != some Byte.equals

/-- The names that a body declares with a value or assigns to. -/
def assigned (body : Text) : List Text :=
  (declaration.search body).map (fun found => body.slice found.value) ++
    ((assignment.search body).filter (isAssignment body ·.span)).map
      (fun found => body.slice found.value)

/-- How many bytes in front of a function its parameter is looked for. -/
def parameterReach : Nat := 50

/-- The stretch in front of a function in which its parameter is looked for. It does not begin
inside a character. -/
def windowBefore (text : Text) (start : Nat) : Span :=
  ⟨text.characterBoundary (start - parameterReach), start⟩

/-- A destructuring pattern in parentheses at the end of a text, a type allowed behind it; answers
where the inside of its braces stands. -/
def parameterPattern : Pattern Span := do
  Pattern.literal "("
  Pattern.blanks
  Pattern.literal [Byte.openBrace]
  let inside ← Pattern.spanned (Pattern.run (.noneOf [Byte.openBrace, Byte.closeBrace]))
  Pattern.literal [Byte.closeBrace]
  Pattern.blanks
  let _ ← Pattern.optional do
    Pattern.literal ":"
    Pattern.run <| .noneOf
      [Byte.openParen, Byte.closeParen, Byte.openBrace, Byte.closeBrace, Byte.equals]
  Pattern.literal ")"
  Pattern.blanks
  Pattern.textEnd
  pure inside

/-- The property that one entry of a destructuring pattern takes out: what stands in front of its
colon and of its equals sign, without the dots of a rest. -/
def propertyOf (entry : Text) : Text :=
  let key : Text := (entry.takeWhile (· != Byte.colon)).takeWhile (· != Byte.equals)
  (key.trim.dropCopies "...").trim

/-- The identifiers that a destructuring pattern just in front of a function takes out. -/
def destructured (text : Text) (start : Nat) : List Text :=
  let window := text.slice (windowBefore text start)
  match parameterPattern.find? window with
  | some found =>
    (((window.slice found.value).splitOn Byte.comma).map propertyOf).filter Text.isIdentifier
  | none => []

/-- The names that the functions of a mask make local, function by function. -/
def ofMask (masked : Text) : List Text :=
  (FunctionBody.all masked).flatMap fun function =>
    assigned (masked.slice function.body) ++ destructured masked function.start

/-- The local names of a source. -/
def ofSource (source : Text) : NameSet := NameSet.ofList (ofMask (hideStyles source).mask)

end BareComponent.LocalNames
