import BareComponent.Text.Basic

/-! # Brackets

Parentheses, square brackets and braces share one depth counter, which a closing bracket never takes
below zero. A position is at the top level when the counter stands at zero there. All searches of
this module read masked text, so that a bracket inside a string or a comment does not count.
-/

namespace BareComponent

def Byte.isOpen (b : UInt8) : Bool := b == openBrace || b == openParen || b == openBracket

def Byte.isClose (b : UInt8) : Bool := b == closeBrace || b == closeParen || b == closeBracket

namespace Text

/-- The depth after one more byte. -/
def depthStep (depth : Nat) (b : UInt8) : Nat :=
  if Byte.isOpen b then depth + 1 else if Byte.isClose b then depth - 1 else depth

def depthAt (text : Text) (position : Nat) : Nat := (text.take position).foldl depthStep 0

/-- Offset of the closing bracket that brings the depth to zero, when it stands at `depth` before
the first byte. -/
def closingOffset? (depth : Nat) : Text → Option Nat
  | [] => none
  | b :: rest =>
    if Byte.isClose b ∧ depthStep depth b = 0 then some 0
    else (closingOffset? (depthStep depth b) rest).map (· + 1)

/-- Position of the bracket that closes the opening bracket at `position`. -/
def closingOf? (text : Text) (position : Nat) : Option Nat :=
  match text.drop position with
  | [] => none
  | b :: rest =>
    if Byte.isOpen b then (closingOffset? 1 rest).map (position + 1 + ·) else none

/-- The pieces between top-level separators of a text whose first byte stands at `position` and at
`depth`, the first piece having begun at `start`. -/
def piecesFrom (separator : UInt8) (depth start position : Nat) : Text → List Span
  | [] => [⟨start, position⟩]
  | b :: rest =>
    if Byte.isOpen b ∨ Byte.isClose b then
      piecesFrom separator (depthStep depth b) start (position + 1) rest
    else if b = separator ∧ depth = 0 then
      ⟨start, position⟩ :: piecesFrom separator depth (position + 1) (position + 1) rest
    else piecesFrom separator depth start (position + 1) rest

/-- The pieces of a text between the separators at its top level. -/
def topLevelPieces (text : Text) (separator : UInt8) : List Span := piecesFrom separator 0 0 0 text

/-- Offset of the first `needle` at depth zero, when the depth stands at `depth` before the first
byte. -/
def topLevelOffset? (needle : UInt8) (depth : Nat) : Text → Option Nat
  | [] => none
  | b :: rest =>
    if Byte.isOpen b ∨ Byte.isClose b then
      (topLevelOffset? needle (depthStep depth b) rest).map (· + 1)
    else if b = needle ∧ depth = 0 then some 0
    else (topLevelOffset? needle depth rest).map (· + 1)

/-- Position of the first `needle` at the top level of a text. -/
def topLevelIndexOf? (text : Text) (needle : UInt8) : Option Nat := topLevelOffset? needle 0 text

/-- Whether a byte ends an expression at whose depth it stands: a closing bracket, a comma, a
semicolon or a newline. -/
def endsExpression (b : UInt8) : Bool :=
  Byte.isClose b || b == Byte.comma || b == Byte.semicolon || b == Byte.newline

/-- Length of the expression that a text begins with, when the depth inside it stands at `depth`
before the first byte. -/
def expressionLength (depth : Nat) : Text → Nat
  | [] => 0
  | b :: rest =>
    if depth = 0 ∧ endsExpression b then 0 else expressionLength (depthStep depth b) rest + 1

/-- The position where the expression that starts at `start` ends. -/
def expressionEnd (text : Text) (start : Nat) : Nat :=
  min text.length (start + expressionLength 0 (text.drop start))

end Text

end BareComponent
