import BareComponent.Component.Script
import BareComponent.Environment
import BareComponent.Registry
import BareComponent.BareScript

/-! # Compiling a component

A compiler turns a component's source into a script in its own way, and exposes a framework under a
module name. What comes out of it is a function body and the environment to run it in. The
modules come from three places, of which a later one wins over an earlier one: the framework, the
registry and the call.
-/

namespace BareComponent

/-- A way to turn source into a script. -/
abbrev ScriptSource := Text → Except ComponentError Text

/-- The script that was compiled elsewhere, whatever the source. -/
def ScriptSource.precompiled (script : Text) : ScriptSource := fun _ => .ok script

/-- The given script if there is one, and the compiled source otherwise. -/
def ScriptSource.ofOption (script : Option Text) : ScriptSource :=
  match script with
  | some script => precompiled script
  | none => ComponentScript.compile

/-- A compiler with the framework that it exposes. -/
structure Compiler where
  toScript : ScriptSource
  /-- The module name of the framework. -/
  frameworkName : Text
  /-- The symbols that the framework exports. -/
  framework : Table Json

/-- A function body with what it needs to run and what was found on the way. -/
structure CompiledComponent where
  /-- The function body. -/
  script : Text
  environment : Environment Json
  /-- The values of the names whose modules are known. -/
  bindings : Table Json
  /-- All require sites of the script before its require lines were stripped. -/
  requires : List RequireSite
  /-- The local names of the source. -/
  localNames : NameSet
deriving Repr

/-- Runs a function body in an environment and answers what it makes. -/
abbrev Evaluator (α : Type) := Text → Environment Json → Except ComponentError α

namespace Compiler

def modules (compiler : Compiler) (imported : Table Json) (registry : Option (Registry Json)) :
    Table Json :=
  let additional := (registry.bind (·.inject? Registry.additionalModules)).getD .empty
  let own := Table.empty.insert compiler.frameworkName (.object compiler.framework.entries)
  (own.merge additional).merge imported

def compile (compiler : Compiler) (source : Text) (imported : Table Json)
    (registry : Option (Registry Json)) : Except ComponentError CompiledComponent := do
  let script ← compiler.toScript source
  let modules := compiler.modules imported registry
  let transformed := BareScript.ofCompiled source script modules
  return {
    script := transformed.script
    environment := ((Environment.ofModules modules).withGlobals compiler.framework).withGlobals
      transformed.bindings
    bindings := transformed.bindings
    requires := transformed.requires
    localNames := transformed.localNames }

/-- Compiles a source and hands the function body and its environment to an evaluator. -/
def evaluate {α : Type} (compiler : Compiler) (source : Text) (imported : Table Json)
    (registry : Option (Registry Json)) (evaluator : Evaluator α) : Except ComponentError α := do
  let compiled ← compiler.compile source imported registry
  evaluator compiled.script compiled.environment

end Compiler

end BareComponent
