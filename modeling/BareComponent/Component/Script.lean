import BareComponent.Component.Blocks
import BareComponent.Component.Declaration
import BareComponent.Component.Import
import BareComponent.ComponentError
import BareComponent.Json.Printer

/-! # The script of a component

A component becomes one script that runs as the body of a function and returns the component's
options. Imports become require lines. The default export of the plain script becomes the options,
which are empty if there is none; the body of the `setup` script becomes a function that returns
what the body declares at its top level; the template becomes a string.

Numbered temporaries stand for modules from which more than one name is taken. One count runs
through both scripts.
-/

namespace BareComponent.ComponentScript

/-- The variable that holds the component's options. -/
def optionsName : Text := "__component__"

/-- A call that requires a path. A path with a single quote in it stands in double quotes. -/
def requireCall (path : Text) : Text :=
  let quote := if path.contains "'" then Byte.doubleQuote else Byte.singleQuote
  Text.ofString "require(" ++ [quote] ++ path ++ [quote] ++ Text.ofString ")"

def constant (target value : Text) : Text :=
  Text.ofString "const " ++ target ++ Text.ofString " = " ++ value

/-- A pattern that takes named exports out of a module. -/
def exportsPattern (named : List (Text × Text)) : Text :=
  let entries := named.map fun (imported, bound) =>
    if imported = bound then imported else imported ++ Text.ofString ": " ++ bound
  Text.ofString "\x7b " ++ Text.join ", " entries ++ Text.ofString " \x7d"

def temporary (count : Nat) : Text := Declaration.temporaryStem ++ Text.ofNat count

/-- The statements that stand for an import, and the count of temporaries after it. An import of
types becomes nothing, and one that binds nothing a bare call. One whose only name is the default
name or the namespace binds that directly; any other goes through a temporary. -/
def requireStatements (count : Nat) (statement : Import) : Text × Nat :=
  let call := requireCall statement.path
  if statement.typeOnly then ([], count)
  else if statement.bindsNothing then (call ++ [Byte.semicolon], count)
  else
    match statement.defaultName, statement.namespaceName, statement.named with
    | some name, none, [] => (constant name call, count)
    | none, some name, [] => (constant name call, count)
    | defaultName, namespaceName, named =>
      let temporary := temporary count
      let lines := [constant temporary call] ++
        (defaultName.toList ++ namespaceName.toList).map (constant · temporary) ++
        (if named.isEmpty then [] else [constant (exportsPattern named) temporary])
      (Text.join [Byte.newline] lines, count + 1)

/-- The statements that stand for each of some imports, and the count after them. -/
def requireEdits (count : Nat) : List Import → List (Span × Text) × Nat
  | [] => ([], count)
  | statement :: rest =>
    let (text, count) := requireStatements count statement
    let (edits, count) := requireEdits count rest
    ((statement.span, text) :: edits, count)

/-- A script with require statements in place of its imports, and the count after it. -/
def requireImports (count : Nat) (script : Text) : Text × Nat :=
  let (edits, count) := requireEdits count (Import.all script)
  (script.replace edits, count)

/-- An exported declaration at the beginning of a line; answers where its `export` and the blanks
behind that stand. -/
def namedExport : Pattern Span := do
  Pattern.lineStart
  Pattern.run (.oneOf " \t")
  let keyword ← Pattern.spanned do
    Pattern.literal "export"
    Pattern.blanks1
  let _ ← Pattern.optional do
    Pattern.literal "async"
    Pattern.blanks1
  Pattern.oneOf ["const", "let", "var", "function", "class"]
  Pattern.wordBoundary
  pure keyword

/-- A script whose exported declarations are plain ones. -/
def dropNamedExports (script : Text) : Text :=
  script.replace ((namedExport.search script).map fun found => (found.value, []))

/-- The words in front of the value that a script exports by default. -/
def defaultExport : Pattern Unit := do
  Pattern.wordBoundary
  Pattern.literal "export"
  Pattern.blanks1
  Pattern.literal "default"
  Pattern.blanks1

/-- A script that stores its default export as the component's options, if it has one. -/
def storeDefaultExport? (script : Text) : Option Text :=
  (defaultExport.find? script.mask).map fun found =>
    script.replace [(found.span, constant optionsName [])]

def emptyOptions : Text := constant optionsName "\x7b\x7d\n"

/-- The part that declares the options, and the count of temporaries after it. -/
def optionsPart : (script : Option Text) → Text × Nat
  | none => (emptyOptions, 0)
  | some script =>
    let (body, count) := requireImports 0 script
    let body := dropNamedExports body
    match storeDefaultExport? body with
    | some body => (body ++ [Byte.newline], count)
    | none => (body ++ [Byte.newline] ++ emptyOptions, count)

def exposedObject (names : List Text) : Text :=
  Text.ofString "\x7b " ++ Text.join ", " names ++ Text.ofString " \x7d"

def setupPart (count : Nat) : (setup : Option Text) → Text
  | none => []
  | some setup =>
    let body := (requireImports count setup).1
    optionsName ++ Text.ofString ".setup = function setup() \x7b\n" ++ body ++ [Byte.newline] ++
      Text.ofString "return " ++ exposedObject (Declaration.names body) ++ Text.ofString "\n\x7d\n"

def templatePart : (template : Option Text) → Text
  | none => []
  | some template =>
    optionsName ++ Text.ofString ".template = " ++ template.quoted ++ [Byte.newline]

/-- The script of a component that is made of some blocks. -/
def ofBlocks (blocks : Blocks) : Text :=
  let (options, count) := optionsPart blocks.script
  options ++ setupPart count blocks.setup ++ templatePart blocks.template ++
    Text.ofString "return " ++ optionsName ++ [Byte.semicolon]

/-- The script of a component. There has to be a block to compile, and no language but JavaScript
is compiled. -/
def compile (source : Text) : Except ComponentError Text :=
  let blocks := Blocks.ofSource source
  if blocks.template.isNone && blocks.script.isNone && blocks.setup.isNone then
    .error (.notCompiled .noBlock)
  else
    match blocks.language with
    | none => .ok (ofBlocks blocks)
    | some language =>
      if language = Text.ofString "js" then .ok (ofBlocks blocks)
      else .error (.notCompiled (.foreignLanguage language))

end BareComponent.ComponentScript
