import BareComponent.ResolvedScript
import BareComponent.ReturnFilter
import BareComponent.Scope.LocalNames

/-! # From a compiled script to a bare function body

The requires of the compiled script are resolved, and the names that are local somewhere in the
component's source are dropped from its return objects. This never fails: an unknown module is left
for the execution to report.
-/

namespace BareComponent

/-- A script that can run as the body of a function, with all that was found on the way. -/
structure BareScript (α : Type) where
  /-- The function body. -/
  script : Text
  /-- The values of the names whose modules are known. -/
  bindings : Table α
  /-- All require sites of the compiled script. -/
  requires : List RequireSite
  /-- The local names of the source. -/
  localNames : NameSet
deriving Repr

/-- Resolves a compiled script and filters its return objects by the local names of the source that
it was compiled from. -/
def BareScript.ofCompiled {α : Type} (source compiled : Text) (modules : Table α) :
    BareScript α :=
  let resolution := ResolvedScript.ofScript compiled modules
  let localNames := LocalNames.ofSource source
  { script := ReturnFilter.apply localNames resolution.script
    bindings := resolution.bindings
    requires := resolution.sites
    localNames }

end BareComponent
