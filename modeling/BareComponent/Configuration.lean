import BareComponent.Json.Printer
import BareComponent.Json.Record

/-! # Configuration

A project's configuration names the framework and lists the modules that components can require. It
is kept as a JSON text, in which every field may be missing; empty tables are not written.
-/

namespace BareComponent

/-- The framework that every component can import. -/
structure Framework where
  name : Text
  symbols : Table Json
deriving Repr

/-- A project's configuration. -/
structure Configuration where
  framework : Framework
  modules : Table Json
deriving Repr

namespace Framework

/-- The module name of the framework where nothing else is said. -/
def defaultName : Text := "vue"

/-- The framework of a project that does not configure one. -/
def default : Framework := ⟨defaultName, .empty⟩

def fields : List (RecordField Framework) := [
  .ofReader "name" (fun _ => Json.textReader) fun framework name => { framework with name },
  .ofReader "symbols" Json.tableReader fun framework symbols => { framework with symbols }]

def reader : (depth : Nat) → Reader Framework := RecordField.readRecord fields default some

def toJson (framework : Framework) : Json :=
  .object <| (Text.ofString "name", .string framework.name) ::
    if framework.symbols.isEmpty then []
    else [(Text.ofString "symbols", .object framework.symbols.entries)]

end Framework

namespace Configuration

/-- The configuration of a project that has none. -/
def default : Configuration := ⟨.default, .empty⟩

/-- The fields of a configuration, in their order. -/
def fields : List (RecordField Configuration) := [
  .ofReader "framework" Framework.reader fun configuration framework =>
    { configuration with framework },
  .ofReader "modules" Json.tableReader fun configuration modules =>
    { configuration with modules }]

def reader : (depth : Nat) → Reader Configuration := RecordField.readRecord fields default some

def ofText? (text : Text) : Option Configuration := Json.ofText? (reader Json.depthLimit) text

def toJson (configuration : Configuration) : Json :=
  .object <| (Text.ofString "framework", configuration.framework.toJson) ::
    if configuration.modules.isEmpty then []
    else [(Text.ofString "modules", .object configuration.modules.entries)]

end Configuration

end BareComponent
