import BareComponent.Pattern.Search
import BareComponent.SourceOrder
import BareComponent.Text.Bracket

/-! # Function bodies

Functions, arrow functions and methods are found by how they begin, and their bodies by the brackets
that follow. Between the parameters and the body a return type may stand. A name in front of
parentheses and a brace is a method unless it is a keyword that opens a block in the same way.

All texts in this module are masks.
-/

namespace BareComponent

/-- How a function is written. -/
inductive FunctionForm where
  /-- `function name(...) { ... }`, with or without a name. -/
  | function
  /-- `=> { ... }` -/
  | arrowBlock
  /-- `=> expression` -/
  | arrowExpression
  /-- `name(...) { ... }` -/
  | method
deriving DecidableEq, Repr

/-- A function found in a text. -/
structure FunctionBody where
  form : FunctionForm
  /-- Where the function begins; an arrow function begins with its arrow. -/
  start : Nat
  /-- The body without its braces. -/
  body : Span
deriving DecidableEq, Repr

namespace FunctionBody

/-- The inside of the braces that open at a position. -/
def bracedAt? (text : Text) (position : Nat) : Option Span :=
  if text[position]? = some Byte.openBrace then
    (text.closingOf? position).map fun closing => ⟨position + 1, closing⟩
  else none

def returnType : Pattern Unit := do
  Pattern.literal ":"
  Pattern.run (.oneOf " \t")
  Pattern.character (.ofByte Byte.startsIdentifier)
  Pattern.run (.or .wordOrDollar (.oneOf ".<>[]|&, \t"))
  Pattern.literal [Byte.openBrace]

/-- The body that follows the parameters whose parenthesis opens at a position, a return type
allowed in between. -/
def afterParameters? (text : Text) (position : Nat) : Option Span := do
  let closing ← text.closingOf? position
  let next := text.skipBlanks (closing + 1)
  if text[next]? = some Byte.colon then
    let found ← returnType.matchAt? (.ofText (text.drop next))
    bracedAt? text (next + found.span.stop - 1)
  else bracedAt? text next

/-- The beginning of a function through the parenthesis of its parameters. -/
def functionHead : Pattern Unit := do
  Pattern.wordBoundary
  Pattern.literal "function"
  Pattern.wordBoundary
  Pattern.blanks
  let _ ← Pattern.optional (Pattern.literal "*")
  Pattern.blanks
  let _ ← Pattern.optional Pattern.name
  Pattern.blanks
  Pattern.literal "("

/-- The functions that the word `function` begins. -/
def functions (text : Text) : List FunctionBody :=
  (functionHead.search text).filterMap fun found =>
    (afterParameters? text (found.span.stop - 1)).map fun body =>
      ⟨.function, found.span.start, body⟩

/-- The function whose arrow stands at a position. Its body is a block if a brace comes next, and
an expression otherwise; a block that is never closed is no body. -/
def ofArrow? (text : Text) (position : Nat) : Option FunctionBody :=
  let next := text.skipBlanks (position + 2)
  if text[next]? = some Byte.openBrace then
    (bracedAt? text next).map fun body => ⟨.arrowBlock, position, body⟩
  else some ⟨.arrowExpression, position, ⟨next, text.expressionEnd next⟩⟩

def arrows (text : Text) : List FunctionBody :=
  ((Pattern.literal "=>").search text).filterMap fun found => ofArrow? text found.span.start

/-- Keywords that stand in front of parentheses and a brace without being methods. -/
def blockOpeners : List Text :=
  ["if", "for", "while", "switch", "catch", "with", "function", "return", "await"]

/-- The beginning of a method through the parenthesis of its parameters; answers where its name
stands. -/
def methodHead : Pattern Span := do
  let name ← Pattern.spanned Pattern.name
  Pattern.blanks
  Pattern.literal "("
  pure name

/-- Whether a name at a position of a text can be that of a method: it is no keyword, does not
continue a longer name and does not follow the word `function`. -/
def isMethodName (text : Text) (name : Text) (position : Nat) : Bool :=
  let before : Text := text.take position
  !blockOpeners.contains name && !before.getLast?.any Byte.continuesIdentifier &&
    !before.trimEnd.endsWith "function"

def methods (text : Text) : List FunctionBody :=
  (methodHead.search text).filterMap fun found =>
    if isMethodName text (text.slice found.value) found.span.start then
      (afterParameters? text (found.span.stop - 1)).map fun body =>
        ⟨.method, found.span.start, body⟩
    else none

/-- All function bodies of a text, in the order of where they begin. -/
def all (text : Text) : List FunctionBody :=
  SourceOrder.sort (·.start) (functions text ++ arrows text ++ methods text)

end FunctionBody

end BareComponent
