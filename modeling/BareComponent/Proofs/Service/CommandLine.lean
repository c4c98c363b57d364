import BareComponent.CommandLine.Run
import BareComponent.Proofs.Configuration
import BareComponent.Service

/-! # The command line and the service

The command line takes a component from files and a framework and modules from the configuration
beside them; the service takes all of it from one request. Where the configuration is spelled as it
is printed, and the request likewise, both come to the same compiler with the same source, so the
one prints a function body or reports an error exactly if the other answers it.
-/

namespace BareComponent

open Json RecordField

def Request.toJson (request : Request) : Json := .object <|
  (Text.ofString "source", .string request.source) ::
    ((request.compiledScript.map fun script =>
      (Text.ofString "compiledScript", .string script)).toList ++
    [(Text.ofString "modules", .object request.modules.entries),
      (Text.ofString "framework", .object request.framework.entries)])

/-- A quoted text is read back as a text that is given. -/
theorem Request.optionalText_quoted (text rest : Text) :
    Request.optionalText (text.quoted ++ rest) = some (some text, rest) := by
  have given : Request.optionalText (text.quoted ++ rest) =
      (Json.textReader (text.quoted ++ rest)).map fun read => (some read.1, read.2) := rfl
  rw [given, Json.textReader, string_quoted_append]
  rfl

/-- A request is read back from its text. -/
theorem Request.ofText?_print (request : Request)
    (modules : ∀ entry ∈ request.modules.entries, Readable 125 entry.2)
    (framework : ∀ entry ∈ request.framework.entries, Readable 125 entry.2) :
    Request.ofText? request.toJson.print = some request := by
  obtain ⟨source, compiledScript, requestModules, requestFramework⟩ := request
  have tables {seen : List Text} (draft : Draft) (fresh : Text.ofString "modules" ∉ seen)
      (frameworkFresh : Text.ofString "framework" ∉ Text.ofString "modules" :: seen) :
      Fills Request.fields 126 seen draft
        [(Text.ofString "modules", .object requestModules.entries),
          (Text.ofString "framework", .object requestFramework.entries)]
        { draft with modules := requestModules, framework := requestFramework } :=
    .put requestModules rfl fresh (fun rest ends => tableReader_print modules ends) <|
      .put requestFramework rfl frameworkFresh
        (fun rest ends => tableReader_print framework ends) .nil
  have filled : Fills Request.fields 126 [] ⟨none, none, .empty, .empty⟩
      ((Text.ofString "source", .string source) ::
        ((compiledScript.map fun script =>
          (Text.ofString "compiledScript", Json.string script)).toList ++
        [(Text.ofString "modules", .object requestModules.entries),
          (Text.ofString "framework", .object requestFramework.entries)]))
      ⟨some source, compiledScript, requestModules, requestFramework⟩ := by
    refine .put source rfl List.not_mem_nil
      (fun rest _ => string_quoted_append source rest) ?_
    cases compiledScript with
    | none => exact tables _ (by decide) (by decide)
    | some script =>
      refine .put (some script) rfl (by decide)
        (fun rest _ => Request.optionalText_quoted script rest) ?_
      exact tables _ (by decide) (by decide)
  let request : Request := ⟨source, compiledScript, requestModules, requestFramework⟩
  have read : Request.reader depthLimit (request.toJson.print ++ []) = some (request, []) :=
    readRecord_print filled (rfl : Request.ofDraft? _ = some request) []
  rw [List.append_nil] at read
  rw [Request.ofText?, Json.ofText?, read]
  rfl

namespace CommandLine

/-- Whether a directory holds a component under a path, the script that was compiled of it
elsewhere under another if there is one, and a configuration that is spelled as it is printed. -/
structure Project (files : Files) (path : Text) (compiledPath : Option Text) (source : Text)
    (script : Option Text) (configuration : Configuration) : Prop where
  sourceStored : files path = .text source
  compiledStored : compiledPath.map files = script.map Entry.text
  configurationStored : files configurationFile = .text configuration.toJson.print

variable {files : Files} {path source : Text} {compiledPath script : Option Text}
  {configuration : Configuration}

/-- What is compiled in a project is its component, with what its configuration says. -/
theorem compile_eq
    (project : Project files path compiledPath source script configuration)
    (back : Configuration.ofText? configuration.toJson.print = some configuration)
    (command : Command) :
    compile files ⟨command, path, compiledPath, none⟩ =
      let compiler : Compiler := ⟨.ofOption script, configuration.framework.name,
        configuration.framework.symbols⟩
      (compiler.compile source configuration.modules none).mapError (.notTransformed path) := by
  have loaded : loadConfiguration files none = .ok configuration := by
    have there : files configurationFile ≠ .missing := by
      rw [project.configurationStored]
      simp
    rw [loadConfiguration, if_neg there, readConfiguration, readText, project.configurationStored]
    simp only [bind, Except.bind, back]
  have read : readText files path = .ok source := by rw [readText, project.sourceStored]
  have compiled : compiledPath.mapM (readText files) = .ok script := by
    have given := project.compiledStored
    cases compiledPath with
    | none =>
      obtain rfl : script = none := by simpa using given.symm
      rfl
    | some compiledPath =>
      obtain ⟨text, rfl, same⟩ := Option.map_eq_some_iff.mp given.symm
      have content : readText files compiledPath = .ok text := by rw [readText, ← same]
      simp [content]
  simp only [compile, loaded, read, compiled, bind, Except.bind]
  cases Compiler.compile ⟨.ofOption script, configuration.framework.name,
    configuration.framework.symbols⟩ source configuration.modules none with
  | ok compiled => rfl
  | error error => rfl

/-- The command line and the service agree: for a component whose project configures symbols of the
framework and modules, the one prints a function body and succeeds exactly if the other answers that
body to a request with the same component, modules and symbols, and the one reports that the
component is not transformed exactly if the other answers the same error. -/
theorem run_transform_iff_handle (parseError : Text → Text) {arguments : List Text}
    {symbols modules : Table Json}
    (asked : action? arguments = some (.run ⟨.transform, path, compiledPath, none⟩))
    (project : Project files path compiledPath source script
      ⟨⟨Framework.defaultName, symbols⟩, modules⟩)
    (symbolsReadable : ∀ entry ∈ symbols.entries, Readable 124 entry.2)
    (modulesReadable : ∀ entry ∈ modules.entries, Readable 125 entry.2) :
    (∀ body, (run files arguments = .printed (body ++ [Byte.newline]) ∧
        (run files arguments).exitCode = 0) ↔
      ∃ bindings names, Service.handle parseError
        (Request.toJson ⟨source, script, modules, symbols⟩).print =
          .compiled body bindings names) ∧
    ∀ error, (∃ failure, run files arguments = .failed failure ∧ failure.message =
        Text.ofString "Failed to transform " ++ path ++ Text.ofString ": " ++ error) ↔
      Service.handle parseError (Request.toJson ⟨source, script, modules, symbols⟩).print =
        .failed error := by
  have configured := Configuration.ofText?_print ⟨⟨Framework.defaultName, symbols⟩, modules⟩
    symbolsReadable modulesReadable
  have requested := Request.ofText?_print ⟨source, script, modules, symbols⟩ modulesReadable
    fun entry member => (symbolsReadable entry member).mono (by decide)
  rw [run, asked]
  simp only [compile_eq project configured, Service.handle, requested, Service.respond]
  cases Compiler.compile ⟨.ofOption script, Framework.defaultName, symbols⟩ source modules none with
  | ok compiled => simp [Except.mapError, output, Outcome.exitCode]
  | error error => simp [Except.mapError, Failure.message, Outcome.exitCode]

/-- A component that requires a configured module is transformed by the command line, and so the
service answers the same body. -/
theorem run_transform_iff_handle_module :
    ∃ bindings names, Service.handle (fun _ => "EOF while parsing a value at line 1 column 0")
      (Request.toJson ⟨"", some "const m = require('m')\nreturn m",
        Table.empty.insert "m" (.array [.number (.integer 7), .null]),
        Table.empty.insert "ref" (.object [("deep", .bool true)])⟩).print =
          .compiled "return m" bindings names := by
  let configuration : Configuration :=
    ⟨⟨Framework.defaultName, Table.empty.insert "ref" (.object [("deep", .bool true)])⟩,
      Table.empty.insert "m" (.array [.number (.integer 7), .null])⟩
  let files : Files := FileTree.files <| .ofTable <| .ofList [("a.vue", ""),
    ("a.js", "const m = require('m')\nreturn m"), (configurationFile, configuration.toJson.print)]
  have printed : run files ["transform", "a.vue", "--compiled", "a.js"] =
      .printed (Text.ofString "return m" ++ [Byte.newline]) := by decide +kernel
  have project : Project files "a.vue" (some "a.js") "" (some "const m = require('m')\nreturn m")
      configuration := ⟨by decide +kernel, by decide +kernel, by decide +kernel⟩
  have symbols : ∀ entry ∈ configuration.framework.symbols.entries, Readable 124 entry.2 := by
    intro entry member
    obtain rfl := List.mem_singleton.mp member
    exact .object (List.pairwise_singleton _ _) (by simp [Readable.bool])
  have modules : ∀ entry ∈ configuration.modules.entries, Readable 125 entry.2 := by
    intro entry member
    obtain rfl := List.mem_singleton.mp member
    have seven : Readable 124 (.number (.integer 7)) :=
      .number (Number.reader_print_integer ⟨by decide, by decide⟩)
    exact .array (by simp [Readable.null, seven])
  exact ((run_transform_iff_handle _ (by decide +kernel) project symbols modules).1 _).mp
    ⟨printed, by rw [printed]; rfl⟩

end CommandLine

end BareComponent
