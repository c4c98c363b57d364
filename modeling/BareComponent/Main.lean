import BareComponent.CommandLine.Run
import BareComponent.Service

/-! # Programs

The command line reads the files that its arguments name, runs, prints what comes of it and exits
with the code of the outcome. The service answers its standard input.
-/

namespace BareComponent

def writeText (stream : IO.FS.Stream) (text : Text) : IO Unit := do
  stream.write text.toByteArray
  stream.flush

namespace CommandLine

/-- The error code for reading a directory. Other errors about the type of a path say that
something on the way is no directory. -/
def directoryCode : UInt32 := 21

def readEntry (path : Text) : IO Entry := do
  match path.toString? with
  | none => return .missing
  | some name =>
    try
      return .text (Text.ofString (← IO.FS.readFile name))
    catch error =>
      match error with
      | .noFileOrDirectory .. => return .missing
      | .inappropriateType _ code _ =>
        return if code = directoryCode then .unreadable else .missing
      | _ => return .unreadable

/-- Runs the command line on the files that it names and answers the exit code. -/
def execute (arguments : List Text) : IO UInt32 := do
  let entries ← (pathsRead arguments).mapM fun path => return (path, ← readEntry path)
  let files : Files := fun path => (entries.lookup path).getD .missing
  let outcome := run files arguments
  match outcome with
  | .printed output => writeText (← IO.getStdout) output
  | .failed failure =>
    writeText (← IO.getStderr) (Text.ofString "Error: " ++ failure.message ++ [Byte.newline])
  | .wrongUsage =>
    writeText (← IO.getStderr) <| Text.ofString
      "Usage: jitvue [-v] (transform|inspect) FILE [--compiled PATH] [--config PATH]\n"
  return outcome.exitCode.toUInt32

end CommandLine

namespace Service

variable (parseError : Text → Text)

/-- Answers the lines of a stream as they come, up to one that cannot be read. -/
partial def answerLines (input output : IO.FS.Stream) : IO Unit := do
  let line ← try input.getLine catch _ => pure ""
  if line.isEmpty then return
  writeText output (Service.output parseError [daemonFlag] (Text.ofString line))
  answerLines input output

/-- Runs the service on its standard input, line by line as a daemon or on all of it at once. -/
def execute (arguments : List Text) : IO Unit := do
  let input ← IO.getStdin
  let output ← IO.getStdout
  if arguments.contains daemonFlag then answerLines parseError input output
  else writeText output (Service.output parseError arguments (Text.ofString (← input.readToEnd)))

end Service

end BareComponent

def main (arguments : List String) : IO UInt32 :=
  BareComponent.CommandLine.execute (arguments.map BareComponent.Text.ofString)
