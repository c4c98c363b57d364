import BareComponent.Proofs.Component.Environment
import BareComponent.Proofs.Component.Imports
import BareComponent.Proofs.Registry

/-! # Which modules a component can require

A component can require the framework, what stands in the registry under the key of the additional
modules, and what the call imports; where a name is in several of these, the later one answers. The
modules that the requires of a script are resolved against are the modules that it can require when
it runs, so a name that is bound before it runs stands for what requiring its module would answer
then. Of several plugins the one that was installed last stores its modules, so the modules of
another one stay available only where something else answers for their names too.
-/

namespace BareComponent

namespace Environment

variable {α : Type}

/-- What is answered for a name: the value that was found, or that nothing was found. -/
def answer (name : Text) : Option α → Except ComponentError α
  | some value => .ok value
  | none => .error (.moduleNotFound name)

/-- What a require answers, as one of the two texts of an answer. -/
theorem require_eq_answer (environment : Environment α) (id : Text) :
    environment.require id = answer id (environment.modules.get? id) := by
  rw [require]
  cases environment.modules.get? id <;> rfl

/-- What a lookup answers: the globals go before the modules. -/
theorem lookup_eq_answer (environment : Environment α) (name : Text) :
    environment.lookup name =
      answer name ((environment.globals.get? name).or (environment.modules.get? name)) := by
  rw [lookup, global?, require_eq_answer]
  cases environment.globals.get? name <;> rfl

end Environment

namespace Compiler

open Registry (Change OnlyPlugins installed lastStored?)

variable {compiler : Compiler} {source : Text} {imported : Table Json}

/-- The module of a name, where a registry has a history: what the call imports, or else what was
stored most recently under the key of the additional modules, or else the framework. -/
def module? (compiler : Compiler) (imported : Table Json) (changes : List (Change Json))
    (name : Text) : Option Json :=
  let additional := (lastStored? Registry.additionalModules changes).bind (·.get? name)
  let framework :=
    if name = compiler.frameworkName then some (Json.object compiler.framework.entries) else none
  (imported.get? name).or (additional.or framework)

/-- Of the three places that modules come from, the last one that knows a name answers for it. -/
theorem get?_modules (compiler : Compiler) (imported : Table Json) (changes : List (Change Json))
    (name : Text) : (compiler.modules imported (some (.after changes))).get? name =
      compiler.module? imported changes name := by
  rw [modules, module?, Option.bind_some, Registry.inject?_after]
  rw [Table.get?_merge, Table.get?_merge, Table.get?_insert, Table.get?_empty]
  cases lastStored? Registry.additionalModules changes with
  | none => rfl
  | some additional => rfl

variable {registry : Option (Registry Json)} {component : CompiledComponent}

/-- The modules of a compiled component are those that its compiler was given. -/
theorem modules_of_compile (success : compiler.compile source imported registry = .ok component) :
    component.environment.modules = compiler.modules imported registry := by
  obtain ⟨_, -, -, environment⟩ := exists_script_of_compile success
  rw [environment]
  rfl

/-- The names of a compiled component are bound as its script is resolved, against its modules. -/
theorem exists_sites_of_compile
    (success : compiler.compile source imported registry = .ok component) :
    ∃ script, compiler.toScript source = .ok script ∧
      component.requires = RequireSite.all script ∧
      component.bindings =
        (ResolvedScript.ofScript script component.environment.modules).bindings := by
  rw [modules_of_compile success]
  obtain ⟨script, written, rfl⟩ := exists_bareScript_of_compile success
  exact ⟨script, written, rfl, rfl⟩

/-- A bound name stands for what requiring the module of one of its sites answers. -/
theorem exists_require_of_bound
    (success : compiler.compile source imported registry = .ok component) {name : Text}
    {value : Json} (bound : component.bindings.get? name = some value) :
    ∃ site ∈ component.requires, site.binding = name ∧
      component.environment.require site.moduleName = .ok value := by
  obtain ⟨script, -, requires, bindings⟩ := exists_sites_of_compile success
  rw [bindings, ResolvedScript.bindings_get?_eq_some_iff] at bound
  obtain ⟨site, member, named, held, -⟩ := bound
  refine ⟨site, requires ▸ member, named, ?_⟩
  rw [Environment.require_eq_answer, held]
  rfl

/-- Against a registry with any history, a lookup in a compiled component asks the bound names,
the framework and the modules in this order, and a require asks the modules; what a name is bound
to is what requiring the module of one of its sites answers. -/
theorem lookup_require_of_compile {changes : List (Change Json)}
    (success : compiler.compile source imported (some (.after changes)) = .ok component) :
    (∀ name, component.environment.lookup name = Environment.answer name
      ((component.bindings.get? name).or
        ((compiler.framework.get? name).or (compiler.module? imported changes name)))) ∧
    (∀ id, component.environment.require id =
      Environment.answer id (compiler.module? imported changes id)) ∧
    ∀ name value, component.bindings.get? name = some value →
      ∃ site ∈ component.requires, site.binding = name ∧
        component.environment.require site.moduleName = .ok value := by
  have moduleEq (name : Text) : component.environment.modules.get? name =
      compiler.module? imported changes name := by
    rw [modules_of_compile success, get?_modules]
  refine ⟨?lookup, ?require, ?bound⟩
  case lookup =>
    intro name
    rw [Environment.lookup_eq_answer, globals_of_compile success, moduleEq, Option.or_assoc]
  case require =>
    intro id
    rw [Environment.require_eq_answer, moduleEq]
  case bound =>
    intro name value bound
    exact exists_require_of_bound success bound

private def withSymbols (script : Text) : Compiler :=
  ⟨.precompiled script, "vue", .ofList [("ref", .ofNat 1), ("x", .ofNat 2)]⟩

private def threeTables : List (Change Json) :=
  [.install (.ofList [("x", .ofNat 3), ("y", .ofNat 4)]),
    .provide "other" (.ofList [("y", .ofNat 5)]),
    .install (.ofList [("x", .ofNat 6), ("vue", .ofNat 7)])]

/-- Here `x` is bound, a symbol and a module at once, and a module that an earlier plugin added is
gone. -/
theorem lookup_require_of_compile_layered : ∃ component,
    (withSymbols "const x = require('z')").compile [] (.ofList [("z", .ofNat 8)])
        (some (.after threeTables)) = .ok component ∧
      component.environment.lookup "x" = .ok (.ofNat 8) ∧
      component.environment.require "x" = .ok (.ofNat 6) ∧
      component.environment.require "y" = .error (.moduleNotFound "y") ∧
      ∃ site ∈ component.requires, site.binding = "x" ∧
        component.environment.require site.moduleName = .ok (.ofNat 8) := by
  let compiler := withSymbols "const x = require('z')"
  let imported : Table Json := .ofList [("z", .ofNat 8)]
  obtain ⟨component, success⟩ := @exists_component_of_toScript compiler [] _ rfl imported
    (some (.after threeTables))
  obtain ⟨lookedUp, required, bound⟩ := lookup_require_of_compile success
  have xModule : compiler.module? imported threeTables "x" = some (.ofNat 6) := rfl
  have yModule : compiler.module? imported threeTables "y" = none := rfl
  have zModule : compiler.module? imported threeTables "z" = some (.ofNat 8) := rfl
  have moduleOfZ : component.environment.modules.get? "z" = some (.ofNat 8) := by
    rw [modules_of_compile success, get?_modules, zModule]
  have xBound : component.bindings.get? "x" = some (.ofNat 8) := by
    obtain ⟨script, written, -, bindings⟩ := exists_sites_of_compile success
    obtain rfl : Text.ofString "const x = require('z')" = script := Except.ok.inj written
    have pathPlain : ComponentScript.PlainPath "z" :=
      ⟨⟨"z", rfl⟩, (List.forall_mem_singleton (a := 'z'.toUInt8)).mpr (by decide),
        (List.forall_mem_singleton (a := 'z'.toUInt8)).mpr (by decide)⟩
    have plain : ComponentScript.ImportLine.Plain (.binds "x" "z") := ⟨rfl, pathPlain⟩
    have sites := ComponentScript.map_all_lines (List.forall_mem_singleton.mpr plain)
    obtain ⟨site, all, pair⟩ := List.map_eq_singleton_iff.mp sites
    obtain ⟨named, moduleEq⟩ := Prod.mk.inj pair
    have allEq : RequireSite.all "const x = require('z')" = [site] := all
    rw [bindings, ResolvedScript.bindings_get?_eq_some_iff, allEq]
    refine ⟨site, List.mem_singleton_self site, named, moduleEq ▸ moduleOfZ, ?_⟩
    intro other member _ _
    rw [List.mem_singleton.mp member]
    exact List.le_refl _
  refine ⟨component, success, ?_, ?_, ?_, bound "x" (.ofNat 8) xBound⟩
  · rw [lookedUp, xBound]
    rfl
  · rw [required, xModule]
    rfl
  · rw [required, yModule]
    rfl

section Plugins

variable {changes : List (Change Json)}

/-- Where only plugins store additional modules, a module is one that the call imports, one of the
plugin that was installed last, or the framework. -/
theorem hasKey_modules_iff (only : OnlyPlugins changes) (compiler : Compiler)
    (imported : Table Json) (name : Text) :
    (compiler.modules imported (some (.after changes))).hasKey name = true ↔
      imported.hasKey name = true ∨
        (∃ last ∈ (installed changes).getLast?, last.hasKey name = true) ∨
        name = compiler.frameworkName := by
  rw [Table.hasKey, get?_modules, module?, Registry.lastStored?_additionalModules only]
  simp only [Option.isSome_or, Bool.or_eq_true, Table.hasKey]
  refine or_congr Iff.rfl (or_congr ?last ?framework)
  case last => cases (installed changes).getLast? <;> simp
  case framework => split <;> simp_all

/-- Exactly the modules of the plugin that was installed last stay, beside those that the call
imports and the framework; so the modules of all plugins stay, whatever the framework is and the
call imports, exactly if the last plugin has every module of the others. -/
theorem installed_stay_iff (only : OnlyPlugins changes) :
    (∀ (compiler : Compiler) (imported : Table Json) (name : Text),
      (compiler.modules imported (some (.after changes))).hasKey name = true ↔
        imported.hasKey name = true ∨
          (∃ last ∈ (installed changes).getLast?, last.hasKey name = true) ∨
          name = compiler.frameworkName) ∧
    ((∀ (compiler : Compiler) (imported : Table Json), ∀ addition ∈ installed changes, ∀ name,
        addition.hasKey name = true →
          (compiler.modules imported (some (.after changes))).hasKey name = true) ↔
      ∀ addition ∈ installed changes, ∀ name, addition.hasKey name = true →
        ∃ last ∈ (installed changes).getLast?, last.hasKey name = true) := by
  refine ⟨hasKey_modules_iff only, ?_, ?_⟩
  · intro stay addition member name has
    let bare : Compiler := ⟨.precompiled [], Byte.slash :: name, .empty⟩
    have known := stay bare .empty addition member name has
    rw [hasKey_modules_iff only] at known
    rcases known with imports | last | framework
    · exact absurd imports (by simp [Table.hasKey])
    · exact last
    · exact absurd (congrArg List.length framework) (by simp [bare])
  · intro last compiler imported addition member name has
    rw [hasKey_modules_iff only]
    exact .inr (.inl (last addition member name has))

private def growing : List (Change Json) :=
  [.install (.ofList [("x", .ofNat 1)]), .install (.ofList [("x", .ofNat 2), ("y", .ofNat 3)])]

private theorem onlyPlugins_growing : OnlyPlugins growing := by
  intro key modules member
  simp [growing] at member

private theorem last_of_growing : ∀ addition ∈ installed growing, ∀ name,
    addition.hasKey name = true → ∃ last ∈ (installed growing).getLast?, last.hasKey name = true := by
  intro addition member name has
  refine ⟨.ofList [("x", .ofNat 2), ("y", .ofNat 3)], rfl, ?_⟩
  rcases List.mem_cons.mp member with rfl | last
  · by_cases named : name = "x"
    · rw [named]
      rfl
    · simp [Table.hasKey, Table.get?_ofList, List.lookup_cons, beq_eq_false_iff_ne.mpr named] at has
  · rwa [List.mem_singleton.mp last] at has

/-- The modules of both plugins stay beside the framework, since the second plugin has what the
first one has. -/
theorem installed_stay_growing :
    OnlyPlugins growing ∧
      ((withSymbols []).modules .empty (some (.after growing))).hasKey "x" = true ∧
      ((withSymbols []).modules .empty (some (.after growing))).hasKey "y" = true ∧
      ((withSymbols []).modules .empty (some (.after growing))).hasKey "vue" = true ∧
      ((withSymbols []).modules .empty (some (.after growing))).hasKey "z" = false := by
  obtain ⟨known, stay⟩ := installed_stay_iff onlyPlugins_growing
  have kept := stay.mpr last_of_growing (withSymbols []) .empty
  refine ⟨onlyPlugins_growing, ?first, ?second, ?framework, ?other⟩
  case first => exact kept _ List.mem_cons_self "x" rfl
  case second => exact kept _ (List.mem_cons_of_mem _ List.mem_cons_self) "y" rfl
  case framework => exact (known _ _ _).mpr (.inr (.inr rfl))
  case other =>
    refine Bool.eq_false_iff.mpr fun found => ?_
    rcases (known _ _ _).mp found with imports | ⟨last, isLast, has⟩ | named
    · cases imports
    · obtain rfl := Option.some.inj isLast
      cases has
    · cases named

/-- A plugin that is installed later takes the place of an earlier one. -/
theorem installed_replaced :
    ¬∀ (compiler : Compiler) (imported : Table Json) (changes : List (Change Json)),
      OnlyPlugins changes → ∀ addition ∈ installed changes, ∀ name,
        addition.hasKey name = true →
          (compiler.modules imported (some (.after changes))).hasKey name = true := by
  intro stay
  let first : Table Json := .ofList [("a", .ofNat 1)]
  let second : Table Json := .ofList [("b", .ofNat 2)]
  have only : OnlyPlugins [.install first, .install second] := by
    intro key modules member
    simp at member
  have kept := stay (withSymbols []) .empty _ only first List.mem_cons_self "a" rfl
  cases kept

end Plugins

end Compiler

end BareComponent
