import BareComponent.Require.Site

/-! # Require lines

A line that ends in a `require` call of one quoted name, whatever stands in front of the call, is a
require line. Stripping a script removes its require lines together with their line ends.
-/

namespace BareComponent.RequireLine

/-- A require line with its line end, or the last line of a text without one. -/
def pattern : Pattern Unit := do
  Pattern.lineStart
  Pattern.many (.noneOf "\n")
  Pattern.wordBoundary
  Pattern.literal "require("
  Pattern.run (.oneOf " \t")
  let _ ← RequireSite.quoted
  Pattern.run (.oneOf " \t")
  Pattern.literal ")"
  Pattern.run (.oneOf " \t")
  let _ ← Pattern.optional (Pattern.literal ";")
  Pattern.run (.oneOf " \t")
  let _ ← Pattern.optional (Pattern.literal "\r")
  Pattern.literal "\n" <|> Pattern.textEnd

/-- Where the require lines of a script stand, from first to last. A script that does not call
`require` at all has none. -/
def spans (script : Text) : List Span :=
  if script.contains "require(" then (pattern.search script.mask).map (·.span) else []

def strip (script : Text) : Text := script.replace ((spans script).map fun span => (span, []))

end BareComponent.RequireLine
