import BareComponent.CommandLine.Arguments
import BareComponent.CommandLine.Files
import BareComponent.CommandLine.Report
import BareComponent.Configuration

/-! # Running a command

A command loads the configuration, reads the component's source and then the script compiled
elsewhere, if one is given, and compiles. The first of these that fails decides what is reported.
-/

namespace BareComponent.CommandLine

/-- Why a command fails. -/
inductive Failure where
  | configurationNotFound (path : Text)
  | configurationMalformed (path : Text)
  | unreadable (path : Text)
  | notTransformed (path : Text) (error : ComponentError)
deriving DecidableEq, Repr

/-- The failure as text. Left out are the cause of a failed read or parse, which the system or the
reader of JSON words, and the working directory in front of the project's own configuration. -/
def Failure.message : Failure → Text
  | configurationNotFound path => Text.ofString "Config file not found: " ++ path
  | configurationMalformed path => Text.ofString "Failed to parse " ++ path
  | unreadable path => Text.ofString "Failed to read " ++ path
  | notTransformed path error =>
    Text.ofString "Failed to transform " ++ path ++ Text.ofString ": " ++ error.message

/-- How a run ends. -/
inductive Outcome where
  /-- With a text to print. -/
  | printed (output : Text)
  /-- With a failure to report. -/
  | failed (failure : Failure)
  /-- Without anything done, as the arguments are not in order. -/
  | wrongUsage
deriving DecidableEq, Repr

def Outcome.exitCode : Outcome → Nat
  | printed _ => 0
  | failed _ => 1
  | wrongUsage => 2

/-- Where a project keeps its configuration. -/
def configurationFile : Text := "jitvue.json"

def versionText : Text := "jitvue 0.1.0\n"

def readText (files : Files) (path : Text) : Except Failure Text :=
  match files path with
  | .text content => .ok content
  | .missing | .unreadable => .error (.unreadable path)

def readConfiguration (files : Files) (path : Text) : Except Failure Configuration := do
  let content ← readText files path
  match Configuration.ofText? content with
  | some configuration => .ok configuration
  | none => .error (.configurationMalformed path)

/-- The configuration of a run: the one that was asked for, or else the project's own, which may be
missing. -/
def loadConfiguration (files : Files) : (path : Option Text) → Except Failure Configuration
  | some path =>
    if files path = .missing then .error (.configurationNotFound path)
    else readConfiguration files path
  | none =>
    if files configurationFile = .missing then .ok .default
    else readConfiguration files configurationFile

def compile (files : Files) (invocation : Invocation) : Except Failure CompiledComponent := do
  let configuration ← loadConfiguration files invocation.configuration
  let source ← readText files invocation.file
  let script ← invocation.compiled.mapM (readText files)
  let compiler : Compiler :=
    ⟨.ofOption script, configuration.framework.name, configuration.framework.symbols⟩
  match compiler.compile source configuration.modules none with
  | .ok compiled => .ok compiled
  | .error error => .error (.notTransformed invocation.file error)

/-- What a command prints about a compiled component. -/
def output (command : Command) (compiled : CompiledComponent) : Text :=
  match command with
  | .transform => compiled.script ++ [Byte.newline]
  | .inspect => (report compiled).pretty ++ [Byte.newline]

def run (files : Files) (arguments : List Text) : Outcome :=
  match action? arguments with
  | none => .wrongUsage
  | some .showVersion => .printed versionText
  | some (.run invocation) =>
    match compile files invocation with
    | .ok compiled => .printed (output invocation.command compiled)
    | .error failure => .failed failure

def pathsRead (arguments : List Text) : List Text :=
  match action? arguments with
  | some (.run invocation) =>
    [invocation.configuration.getD configurationFile, invocation.file] ++
      invocation.compiled.toList
  | _ => []

end BareComponent.CommandLine
