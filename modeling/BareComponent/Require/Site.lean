import BareComponent.Pattern.Search
import BareComponent.Text.Mask

/-! # Require sites

A require site binds a name to a module: `name = require('module')`, with or without a declaring
keyword in front. Sites are looked for in the mask of a script, where strings and comments show no
code; since a mask hides what stands between the quotes, the module's name is read from the script
at the same place.
-/

namespace BareComponent

/-- The two quotes of plain strings. -/
inductive Quote where
  | single
  | double
deriving DecidableEq, Repr

def Quote.byte : Quote → UInt8
  | single => Byte.singleQuote
  | double => Byte.doubleQuote

/-- A place where a script binds a name to a module. -/
structure RequireSite where
  /-- The name that is bound. -/
  binding : Text
  /-- The quote around the module's name. -/
  quote : Quote
  /-- The module's name. -/
  moduleName : Text
  /-- Where the site stands in the script. -/
  span : Span
deriving DecidableEq, Repr

namespace RequireSite

/-- A string on one line in one kind of quote; answers where its content stands. -/
def quotedIn (quote : Quote) : Pattern (Quote × Span) := do
  Pattern.literal [quote.byte]
  let content ← Pattern.spanned (Pattern.run (.noneOf [quote.byte, Byte.newline]))
  Pattern.literal [quote.byte]
  pure (quote, content)

/-- A string on one line in either kind of quote. -/
def quoted : Pattern (Quote × Span) := quotedIn .single <|> quotedIn .double

/-- A require site; answers where its name stands, its quote and where the module's name stands. -/
def pattern : Pattern (Span × Quote × Span) := do
  let _ ← Pattern.optional do
    Pattern.wordBoundary
    Pattern.oneOf ["var", "const", "let"]
    Pattern.blanks1
  let binding ← Pattern.spanned Pattern.name
  Pattern.blanks
  Pattern.literal "="
  Pattern.blanks
  Pattern.literal "require("
  Pattern.blanks
  let (quote, content) ← quoted
  Pattern.blanks
  Pattern.literal ")"
  pure (binding, quote, content)

/-- All require sites of a script, from first to last. -/
def all (script : Text) : List RequireSite :=
  let masked := script.mask
  (pattern.search masked).map fun found =>
    let (binding, quote, content) := found.value
    { binding := masked.slice binding
      quote
      moduleName := script.slice content
      span := found.span }

end RequireSite

end BareComponent
