import BareComponent.Compiler
import BareComponent.Configuration

/-! # Requests and responses

The service takes a component in a JSON text and answers the function body in another. It is asked
once, with all of its input as the request, or as a daemon with a request on every line of it.
-/

namespace BareComponent

/-- What the service is asked to compile. -/
structure Request where
  source : Text
  /-- The script that another compiler made of the source, if there is one. -/
  compiledScript : Option Text
  modules : Table Json
  /-- The symbols that the framework exports. -/
  framework : Table Json
deriving Repr

/-- A request of which not everything has been read. -/
structure Request.Draft where
  source : Option Text
  compiledScript : Option Text
  modules : Table Json
  framework : Table Json

/-- What the service answers. -/
inductive Response where
  /-- The function body, the values of the names whose modules are known, and the local names. -/
  | compiled (script : Text) (bindings : Table Json) (localNames : NameSet)
  /-- The text of an error. -/
  | failed (error : Text)
deriving Repr

namespace Request

def optionalText : Reader (Option Text) := fun text =>
  match (Reader.skipGap text).after? "null" with
  | some rest => some (none, rest)
  | none => (Json.textReader text).map fun (value, rest) => (some value, rest)

def fields : List (RecordField Draft) := [
  .ofReader "source" (fun _ => Json.textReader) fun draft source =>
    { draft with source := some source },
  .ofReader "compiledScript" (fun _ => optionalText) fun draft compiledScript =>
    { draft with compiledScript },
  .ofReader "modules" Json.tableReader fun draft modules => { draft with modules },
  .ofReader "framework" Json.tableReader fun draft framework => { draft with framework }]

/-- The request that a draft amounts to, if it has a source. -/
def ofDraft? (draft : Draft) : Option Request :=
  draft.source.map fun source =>
    ⟨source, draft.compiledScript, draft.modules, draft.framework⟩

def reader : (depth : Nat) → Reader Request :=
  RecordField.readRecord fields ⟨none, none, .empty, .empty⟩ ofDraft?

def ofText? (text : Text) : Option Request := Json.ofText? (reader Json.depthLimit) text

end Request

namespace Response

def toJson : Response → Json
  | compiled script bindings localNames => .object [
      (Text.ofString "ok", .bool true),
      (Text.ofString "script", .string script),
      (Text.ofString "bindings", .object bindings.entries),
      (Text.ofString "localNames", .strings localNames.keys)]
  | failed error => .object [
      (Text.ofString "ok", .bool false),
      (Text.ofString "error", .string error)]

def print (response : Response) : Text := response.toJson.print

end Response

namespace Service

def respond (request : Request) : Response :=
  let compiler : Compiler :=
    ⟨.ofOption request.compiledScript, Framework.defaultName, request.framework⟩
  match compiler.compile request.source request.modules none with
  | .ok compiled => .compiled compiled.script compiled.bindings compiled.localNames
  | .error error => .failed error.message

variable (parseError : Text → Text)

/-- Answers a text. Of one that holds no request, `parseError` is what the reader of JSON says. -/
def handle (input : Text) : Response :=
  match Request.ofText? input with
  | some request => respond request
  | none => .failed (parseError input)

/-- The requests of a daemon's input: its lines without the blanks around them, as far as anything
is left of them. A line that is no string ends the input. -/
def requests (input : Text) : List Text :=
  let lines := (input.splitOn Byte.newline).takeWhile fun line => (Text.toString? line).isSome
  (lines.map Text.trim).filter (!·.isEmpty)

/-- The argument that asks for a daemon. -/
def daemonFlag : Text := "--daemon"

/-- The response lines to an input. Asked once, the service answers nothing to what is no string. -/
def run (arguments : List Text) (input : Text) : List Text :=
  if arguments.contains daemonFlag then
    (requests input).map fun text => (handle parseError text).print
  else if input.toString?.isSome then [(handle parseError input).print]
  else []

/-- All that is written in answer to an input: each response line and its end. -/
def output (arguments : List Text) (input : Text) : Text :=
  (run parseError arguments input).flatMap fun line => line ++ [Byte.newline]

end Service

end BareComponent
