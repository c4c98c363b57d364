import BareComponent.Pattern.Search

/-! # Blocks of a component

A single-file component holds a template and up to two scripts. The template reaches from the first
opening tag to the last closing tag, so that templates nested in it stay inside. Every script block
is classified by its `setup` attribute, and the first block of each kind is the one that counts.
-/

namespace BareComponent

/-- One script block as it stands in the source. -/
structure ScriptBlock where
  attributes : Text
  content : Text
deriving DecidableEq, Repr

/-- The blocks that make up a component. -/
structure Blocks where
  /-- Markup of the template. -/
  template : Option Text
  /-- The plain script, which exports the component's options. -/
  script : Option Text
  /-- The script whose body becomes the component's `setup` function. -/
  setup : Option Text
  /-- The first language that a script block declares. -/
  language : Option Text
deriving DecidableEq, Repr

namespace ScriptBlock

/-- A `setup` attribute: the word alone, or with a value. -/
def setupAttribute : Pattern Unit := do
  Pattern.textStart <|> Pattern.character .blank
  Pattern.literal "setup"
  Pattern.character (.or .blank (.oneOf "=")) <|> Pattern.textEnd

/-- A `lang` attribute; answers where its value stands. -/
def languageAttribute : Pattern Span := do
  Pattern.literal "lang"
  Pattern.blanks
  Pattern.literal "="
  Pattern.blanks
  Pattern.character (.oneOf "'\"")
  let value ← Pattern.spanned (Pattern.run1 (.noneOf "'\""))
  Pattern.character (.oneOf "'\"")
  pure value

/-- Whether the block holds the body of the `setup` function. -/
def isSetup (block : ScriptBlock) : Bool := (setupAttribute.find? block.attributes).isSome

def language? (block : ScriptBlock) : Option Text :=
  (languageAttribute.find? block.attributes).map fun found => block.attributes.slice found.value

/-- A script block; answers where its attributes and its content stand. -/
def pattern : Pattern (Span × Span) := do
  Pattern.literal "<script"
  let attributes ← Pattern.spanned (Pattern.run (.noneOf ">"))
  Pattern.literal ">"
  let content ← Pattern.spanned (Pattern.upTo "</script>")
  Pattern.literal "</script>"
  pure (attributes, content)

/-- The script blocks of a source, from first to last. -/
def all (source : Text) : List ScriptBlock :=
  (pattern.search source).map fun found =>
    ⟨source.slice found.value.1, (source.slice found.value.2).trim⟩

end ScriptBlock

namespace Blocks

/-- The template: what stands between the first opening tag and the last closing tag, if there is
anything between them. -/
def template? (source : Text) : Option Text := do
  let start ← source.indexOf? "<template"
  let tag ← Text.indexOf? (source.drop start) ">"
  let stop ← source.lastIndexOf? "</template>"
  let content := start + tag + 1
  if content < stop then some (source.slice ⟨content, stop⟩).trim else none

/-- Takes a source apart. -/
def ofSource (source : Text) : Blocks :=
  let scripts := ScriptBlock.all source
  { template := template? source
    script := (scripts.find? (!·.isSetup)).map (·.content)
    setup := (scripts.find? (·.isSetup)).map (·.content)
    language := scripts.findSome? (·.language?) }

end Blocks

end BareComponent
