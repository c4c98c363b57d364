import BareComponent.Text.Basic

/-! # Arguments

The command line is `[-v|--verbose] (transform|inspect) FILE [--compiled PATH] [--config PATH]`. The
verbose flag may stand on both sides of the command, once on each. A path is the next argument or
stands behind an equals sign; it is not empty, and as an argument of its own it does not look like
an option. Two dashes end the options. The version is asked for in front of the command.
-/

namespace BareComponent.CommandLine

/-- What is to be done with a component. -/
inductive Command where
  /-- Print its function body. -/
  | transform
  /-- Report what was found in it. -/
  | inspect
deriving DecidableEq, Repr

/-- A command with the paths that it works on. -/
structure Invocation where
  command : Command
  /-- The component's source. -/
  file : Text
  /-- A script that another compiler made of the source. -/
  compiled : Option Text
  /-- The configuration, if it is not the project's own. -/
  configuration : Option Text
deriving DecidableEq, Repr

/-- What the arguments ask for. -/
inductive Action where
  | showVersion
  | run (invocation : Invocation)
deriving DecidableEq, Repr

/-- The arguments behind a command, as far as they have been read. -/
structure Draft where
  isVerbose : Bool
  file : Option Text
  compiled : Option Text
  configuration : Option Text

namespace Draft

def empty : Draft := ⟨false, none, none, none⟩

def setVerbose (draft : Draft) : Option Draft :=
  if draft.isVerbose then none else some { draft with isVerbose := true }

def setFile (draft : Draft) (path : Text) : Option Draft :=
  if path = [] ∨ draft.file.isSome then none else some { draft with file := some path }

def setOption (draft : Draft) (name path : Text) : Option Draft :=
  if path = [] then none
  else if name = Text.ofString "compiled" ∧ draft.compiled.isNone then
    some { draft with compiled := some path }
  else if name = Text.ofString "config" ∧ draft.configuration.isNone then
    some { draft with configuration := some path }
  else none

/-- The invocation that the arguments amount to, if they name a file. -/
def invocation? (draft : Draft) (command : Command) : Option Invocation :=
  draft.file.map fun file => ⟨command, file, draft.compiled, draft.configuration⟩

end Draft

/-- Whether an argument looks like an option: a dash with something behind it. -/
def looksLikeOption (argument : Text) : Bool :=
  argument.startsWith "-" && argument.length != 1

/-- The name of a long option and the value behind its equals sign. -/
def splitLong (option : Text) : Text × Option Text :=
  match option.cut? "=" with
  | some (name, value) => (name, some value)
  | none => (option, none)

def readArguments (draft : Draft) : List Text → Option Draft
  | [] => some draft
  | argument :: rest =>
    if argument = Text.ofString "--" then rest.foldlM Draft.setFile draft
    else if argument = Text.ofString "-v" ∨ argument = Text.ofString "--verbose" then
      draft.setVerbose.bind fun draft => readArguments draft rest
    else
      match argument.after? "--" with
      | some option =>
        match splitLong option with
        | (name, some path) =>
          (draft.setOption name path).bind fun draft => readArguments draft rest
        | (name, none) =>
          match rest with
          | [] => none
          | path :: rest =>
            if looksLikeOption path then none
            else (draft.setOption name path).bind fun draft => readArguments draft rest
      | none =>
        if looksLikeOption argument then none
        else (draft.setFile argument).bind fun draft => readArguments draft rest

def command? (name : Text) : Option Command :=
  if name = Text.ofString "transform" then some .transform
  else if name = Text.ofString "inspect" then some .inspect
  else none

/-- Reads the arguments in front of the command and then those behind it. Short flags may share a
dash. -/
def readFromStart (isVerbose : Bool) : List Text → Option Action
  | [] => none
  | argument :: rest =>
    match command? argument with
    | some command => do
      let draft ← readArguments .empty rest
      let invocation ← draft.invocation? command
      return .run invocation
    | none =>
      if argument = Text.ofString "--version" ∨ argument.startsWith "-V" then some .showVersion
      else if isVerbose then none
      else if argument.startsWith "-vV" then some .showVersion
      else if argument = Text.ofString "-v" ∨ argument = Text.ofString "--verbose" then
        readFromStart true rest
      else none

/-- What the arguments ask for, if they are in order. -/
def action? (arguments : List Text) : Option Action := readFromStart false arguments

end BareComponent.CommandLine
