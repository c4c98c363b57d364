import BareComponent.Require.Line
import BareComponent.Table

/-! # Resolving requires

A script is resolved against a table of modules. Every site whose module is in the table gives its
name that module's value; a site whose module is missing gives no binding and is left for the
execution to report. Either way the require lines are stripped.
-/

namespace BareComponent

/-- What resolving a script yields. -/
structure ResolvedScript (α : Type) where
  /-- The script without its require lines. -/
  script : Text
  /-- The values of the names whose modules are known. -/
  bindings : Table α
  /-- All require sites of the script as it was given. -/
  sites : List RequireSite
deriving Repr

namespace ResolvedScript

variable {α : Type}

/-- The names that the sites bind to modules of a table, each with its value: module by module in
the order of the table, and for one module from the first site to the last. -/
def boundNames (modules : Table α) (sites : List RequireSite) : List (Text × α) :=
  modules.entries.flatMap fun (moduleName, value) =>
    (sites.filter (·.moduleName == moduleName)).map fun site => (site.binding, value)

/-- Resolves a script against a table of modules. Where a name is bound more than once, the
binding made last in the order of `boundNames` stays. -/
def ofScript (script : Text) (modules : Table α) : ResolvedScript α :=
  let sites := RequireSite.all script
  { script := RequireLine.strip script
    bindings := Table.ofList (boundNames modules sites)
    sites }

end ResolvedScript

end BareComponent
