import BareComponent.Compiler

/-! # Probing a function body

A probe stands in for an engine that runs function bodies. It insists on how the body ends, looks up
some names and requires some modules, and answers the body with the values that it got.
-/

namespace BareComponent

/-- What a probe insists on and asks for. -/
structure Probe where
  /-- What the body has to end with, blanks behind it aside. -/
  ending : Text
  /-- Names to look up. -/
  names : List Text
  /-- Modules to require. -/
  modules : List Text

namespace Probe

/-- What a probe made of a function body. -/
structure Outcome where
  body : Text
  /-- The values of the names and then those of the modules. -/
  values : List Json

/-- The evaluator that carries out a probe. The first thing that is missing ends it. -/
def evaluator (probe : Probe) : Evaluator Outcome := fun body environment => do
  if !body.trimEnd.endsWith probe.ending then
    throw (.scriptRejected (Text.ofString "missing " ++ probe.ending))
  let names ← probe.names.mapM environment.lookup
  let modules ← probe.modules.mapM environment.require
  return ⟨body, names ++ modules⟩

end Probe

end BareComponent
