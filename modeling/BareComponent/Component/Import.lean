import BareComponent.Pattern.Search
import BareComponent.Text.Identifier

/-! # Import statements

An import statement starts a line, binds a default name, a namespace name or a list of named
exports, and gives the path of a module in quotes. It may span several lines up to the path. A
statement that binds nothing is run for its effects alone.
-/

namespace BareComponent

/-- An import statement found in a script. -/
structure Import where
  /-- Where the statement stands in the script. -/
  span : Span
  /-- The name bound to the module's default export. -/
  defaultName : Option Text
  /-- The name bound to the module itself. -/
  namespaceName : Option Text
  /-- Named exports, each with the name it is bound to. -/
  named : List (Text × Text)
  /-- The module's path. -/
  path : Text
  /-- Whether the statement imports types only. -/
  typeOnly : Bool
deriving DecidableEq, Repr

/-- What the clause between `import` and `from` binds. -/
structure ImportClause where
  defaultName : Option Text
  namespaceName : Option Text
  named : List (Text × Text)
deriving DecidableEq, Repr

namespace ImportClause

/-- The clause in front of the braces and the text between the first opening and the last closing
one, if these stand in that order. -/
def splitBraces (clause : Text) : Text × Option Text :=
  match clause.indexOf? [Byte.openBrace], clause.lastIndexOf? [Byte.closeBrace] with
  | some opening, some closing =>
    if opening < closing then
      (clause.take opening, some (clause.slice ⟨opening + 1, closing⟩))
    else (clause, none)
  | _, _ => (clause, none)

/-- Adds what one part of the clause outside braces binds: `* as name` the namespace, and a plain
identifier the default export. A later part takes the place of an earlier one. -/
def addOutside (clause : ImportClause) (part : Text) : ImportClause :=
  match part.trim.after? [Byte.asterisk] with
  | some rest =>
    let name := (rest.trim.dropCopies "as").trim
    if name.isIdentifier then { clause with namespaceName := some name } else clause
  | none =>
    if part.trim.isIdentifier then { clause with defaultName := some part.trim } else clause

/-- The binding of one part inside braces: `name`, `name as other`, either of them after `type`. -/
def specifier? (part : Text) : Option (Text × Text) :=
  let part := part.trim
  let part := ((part.after? "type ").map Text.trim).getD part
  let (imported, bound) :=
    match part.cut? " as " with
    | some (imported, bound) => (imported.trim, bound.trim)
    | none => (part, part)
  if imported.isIdentifier && bound.isIdentifier then some (imported, bound) else none

/-- Reads a clause; parts that bind no identifier are left out. -/
def ofText (text : Text) : ImportClause :=
  let (outside, inside) := splitBraces text
  let clause := (outside.splitOn Byte.comma).foldl addOutside ⟨none, none, []⟩
  { clause with named :=
      match inside with
      | some inside => (inside.splitOn Byte.comma).filterMap specifier?
      | none => [] }

end ImportClause

namespace Import

/-- What an import statement is made of: whether it is for types only, where its clause stands and
where its path stands. -/
def pattern : Pattern (Bool × Option Span × Span) := do
  Pattern.lineStart
  Pattern.run (.oneOf " \t")
  Pattern.literal "import"
  Pattern.many1 .blank
  let typeOnly ← Pattern.optional do
    Pattern.literal "type"
    Pattern.many1 .blank
  let clause ← Pattern.optional do
    let clause ← Pattern.spanned (Pattern.fewest (.noneOf "'\""))
    Pattern.blanks1
    Pattern.literal "from"
    Pattern.blanks1
    pure clause
  Pattern.character (.oneOf "'\"")
  let path ← Pattern.spanned (Pattern.run1 (.noneOf "'\"\n"))
  Pattern.character (.oneOf "'\"")
  Pattern.run (.oneOf " \t")
  let _ ← Pattern.optional (Pattern.literal ";")
  pure (typeOnly.isSome, clause, path)

/-- All import statements of a script, from first to last. -/
def all (script : Text) : List Import :=
  (pattern.search script).map fun found =>
    let (typeOnly, clauseSpan, pathSpan) := found.value
    let clause := ImportClause.ofText <|
      match clauseSpan with
      | some span => (script.slice span).trim
      | none => []
    { span := found.span
      defaultName := clause.defaultName
      namespaceName := clause.namespaceName
      named := clause.named
      path := script.slice pathSpan
      typeOnly }

def bindsNothing (statement : Import) : Bool :=
  statement.defaultName.isNone && statement.namespaceName.isNone && statement.named.isEmpty

end Import

end BareComponent
