import BareComponent.Compiler

/-! # Reports

A report on a compiled component lists its bindings, its local names, the modules that it could
require, and its require sites, each with whether its name is bound.
-/

namespace BareComponent.CommandLine

def siteReport (bindings : Table Json) (site : RequireSite) : Json := .object [
  (Text.ofString "binding", .string site.binding),
  (Text.ofString "module", .string site.moduleName),
  (Text.ofString "resolved", .bool (bindings.hasKey site.binding))]

def report (compiled : CompiledComponent) : Json := .object [
  (Text.ofString "bindings", .object compiled.bindings.entries),
  (Text.ofString "localNames", .strings compiled.localNames.keys),
  (Text.ofString "modules", .strings compiled.environment.modules.keys),
  (Text.ofString "requires", .array (compiled.requires.map (siteReport compiled.bindings)))]

end BareComponent.CommandLine
