import BareComponent.Compiler
import BareComponent.Proofs.Require.Resolved

/-! # What a compiled component can look up

A compiled component sees the names that its requires bind, the symbols of the framework and the
modules by their names, in this order. A require whose module is not in the table binds nothing, and
its line is stripped all the same; a lookup of the name that it leaves dangling fails exactly if
neither the framework nor the modules know the name.
-/

namespace BareComponent

namespace Environment

variable {α : Type}

/-- A lookup answers with a global of that name, or else with a module of that name. -/
theorem lookup_eq_ok_iff (environment : Environment α) (name : Text) (value : α) :
    environment.lookup name = .ok value ↔
      (environment.globals.get? name).or (environment.modules.get? name) = some value := by
  rw [lookup, global?, require]
  cases environment.globals.get? name <;> cases environment.modules.get? name <;> simp

/-- A lookup fails exactly if there is neither a global nor a module of that name, and then says
which name was not found. -/
theorem lookup_eq_error_iff (environment : Environment α) (name : Text)
    (error : ComponentError) : environment.lookup name = .error error ↔
      error = .moduleNotFound name ∧ environment.globals.hasKey name = false ∧
        environment.modules.hasKey name = false := by
  rw [lookup, global?, require, Table.hasKey, Table.hasKey]
  cases environment.globals.get? name <;> cases environment.modules.get? name <;> simp [eq_comm]

end Environment

namespace Compiler

variable {compiler : Compiler} {source : Text} {imported : Table Json}
  {registry : Option (Registry Json)} {component : CompiledComponent}

/-- A component that compiles is made of the script that its source was turned into. -/
theorem exists_bareScript_of_compile
    (success : compiler.compile source imported registry = .ok component) :
    ∃ script, compiler.toScript source = .ok script ∧
      let modules := compiler.modules imported registry
      let transformed := BareScript.ofCompiled source script modules
      component = {
        script := transformed.script
        environment := ((Environment.ofModules modules).withGlobals
          compiler.framework).withGlobals transformed.bindings
        bindings := transformed.bindings
        requires := transformed.requires
        localNames := transformed.localNames } := by
  rw [compile] at success
  cases written : compiler.toScript source with
  | error fault =>
    rw [written] at success
    contradiction
  | ok script =>
    rw [written] at success
    exact ⟨script, rfl, (Except.ok.inj success).symm⟩

/-- A component that compiles is the bare script of what its source was turned into, in the
environment of the modules, the framework and the bound names. -/
theorem exists_script_of_compile
    (success : compiler.compile source imported registry = .ok component) :
    ∃ script, compiler.toScript source = .ok script ∧
      component.script =
        ReturnFilter.apply (LocalNames.ofSource source) (RequireLine.strip script) ∧
      component.environment =
        ((Environment.ofModules (compiler.modules imported registry)).withGlobals
          compiler.framework).withGlobals component.bindings := by
  obtain ⟨script, written, rfl⟩ := exists_bareScript_of_compile success
  refine ⟨script, written, ?_, rfl⟩
  dsimp only [BareScript.ofCompiled]
  rfl

/-- Whatever script a source is turned into, a component is made of it. -/
theorem exists_component_of_toScript {script : Text}
    (written : compiler.toScript source = .ok script) (imported : Table Json)
    (registry : Option (Registry Json)) :
    ∃ component, compiler.compile source imported registry = .ok component := by
  rw [compile, written]
  exact ⟨_, rfl⟩

/-- The globals of a compiled component are its bound names and the symbols of the framework, of
which the bound names come first. -/
theorem globals_of_compile (success : compiler.compile source imported registry = .ok component)
    (name : Text) : component.environment.globals.get? name =
      (component.bindings.get? name).or (compiler.framework.get? name) := by
  obtain ⟨_, _, _, environment⟩ := exists_script_of_compile success
  rw [environment, Environment.withGlobals, Table.get?_merge, Environment.withGlobals,
    Table.get?_merge, Environment.ofModules, Table.get?_empty, Option.or_none]

end Compiler

/-- A site of a component whose module is not there, and whose name no other site binds either. -/
structure CompiledComponent.Dangling (component : CompiledComponent) (site : RequireSite) :
    Prop where
  member : site ∈ component.requires
  absent : component.environment.modules.hasKey site.moduleName = false
  unbound : component.bindings.hasKey site.binding = false

namespace Compiler

variable {compiler : Compiler} {source : Text} {imported : Table Json}
  {registry : Option (Registry Json)} {component : CompiledComponent}

/-- A lookup of a dangling name fails for want of that name exactly if it is neither a symbol of the
framework nor the name of a module; otherwise it answers with the symbol, or else the module. -/
theorem dangling_lookup (success : compiler.compile source imported registry = .ok component)
    {site : RequireSite} (dangling : component.Dangling site) :
    (component.environment.lookup site.binding = .error (.moduleNotFound site.binding) ↔
      compiler.framework.hasKey site.binding = false ∧
        component.environment.modules.hasKey site.binding = false) ∧
    ∀ value, component.environment.lookup site.binding = .ok value ↔
      (compiler.framework.get? site.binding).or
        (component.environment.modules.get? site.binding) = some value := by
  have nothing : component.bindings.get? site.binding = none := by
    simpa [Table.hasKey] using dangling.unbound
  have globals : component.environment.globals.get? site.binding =
      compiler.framework.get? site.binding := by
    rw [globals_of_compile success, nothing, Option.none_or]
  refine ⟨?_, fun value => ?_⟩
  · rw [Environment.lookup_eq_error_iff, Table.hasKey, globals, ← Table.hasKey]
    simp
  · rw [Environment.lookup_eq_ok_iff, globals]

private def withRef (script : Text) : Compiler :=
  ⟨.precompiled script, "vue", .ofList [("ref", .ofNat 1)]⟩

/-- A name that is neither a symbol nor a module is dangling here, and its lookup fails. -/
theorem dangling_lookup_missing : ∃ component,
    (withRef "const foo = require('missing')\nreturn foo").compile [] .empty none = .ok component ∧
      ∃ site, component.Dangling site ∧
        component.environment.lookup site.binding = .error (.moduleNotFound "foo") := by
  let compiler := withRef "const foo = require('missing')\nreturn foo"
  let site : RequireSite := ⟨"foo", .single, "missing", ⟨0, 30⟩⟩
  refine ⟨_, rfl, site, ?dangling,
    (@dangling_lookup compiler [] .empty none _ rfl site ?dangling).1.mpr ⟨?_, ?_⟩⟩
  case dangling => exact ⟨by decide +kernel, by decide +kernel, by decide +kernel⟩
  all_goals decide +kernel

/-- A symbol of the framework answers for a name that a missing module leaves dangling. -/
theorem dangling_lookup_answered :
    ¬∀ (compiler : Compiler) (source : Text) (imported : Table Json)
      (registry : Option (Registry Json)) (component : CompiledComponent),
      compiler.compile source imported registry = .ok component →
        ∀ site, component.Dangling site →
          component.environment.lookup site.binding = .error (.moduleNotFound site.binding) := by
  intro fails
  let site : RequireSite := ⟨"ref", .single, "missing", ⟨0, 30⟩⟩
  have failed := fails (withRef "const ref = require('missing')\nreturn ref") [] .empty none _ rfl
    site ⟨by decide +kernel, by decide +kernel, by decide +kernel⟩
  have symbol := ((Environment.lookup_eq_error_iff _ _ _).mp failed).2.1
  exact absurd symbol (by decide +kernel)

end Compiler

end BareComponent
