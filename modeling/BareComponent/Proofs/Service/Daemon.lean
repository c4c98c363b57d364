import BareComponent.Proofs.Json.OneLine
import BareComponent.Proofs.Text.Pieces
import BareComponent.Service

/-! # The daemon

A daemon takes each line of its input for a request of its own. A request that stands on one line
between braces or brackets comes through splitting and trimming as it was, and its response is one
line again, so the daemon writes what the service writes when it is asked once for each request.
This holds however the reader of JSON words its errors: an error is a function of the request, and
a line end in it is escaped.
-/

namespace BareComponent

namespace Service

open Text (IsString isString_ofString isSome_toString?_iff)

/-- Whether a text stands on one line between braces or brackets. -/
structure IsFramed (request : Text) : Prop where
  opened : request.head? = some Byte.openBrace ∨ request.head? = some Byte.openBracket
  closed : request.getLast? = some Byte.closeBrace ∨ request.getLast? = some Byte.closeBracket
  whole : Byte.newline ∉ request

instance (request : Text) : Decidable (IsFramed request) :=
  decidable_of_iff
    ((request.head? = some Byte.openBrace ∨ request.head? = some Byte.openBracket) ∧
      (request.getLast? = some Byte.closeBrace ∨ request.getLast? = some Byte.closeBracket) ∧
      Byte.newline ∉ request)
    ⟨fun ⟨opened, closed, whole⟩ => ⟨opened, closed, whole⟩,
      fun framed => ⟨framed.opened, framed.closed, framed.whole⟩⟩

/-- A framed request is already trimmed. -/
theorem IsFramed.trim_eq {request : Text} (framed : IsFramed request) : request.trim = request := by
  apply Text.trim_eq_self
  · rcases framed.opened with first | first <;>
      obtain ⟨rest, rfl⟩ := List.head?_eq_some_iff.mp first
    · exact Text.leadingWidth_encode _ '\x7b' rest
    · exact Text.leadingWidth_encode _ '[' rest
  · rcases framed.closed with last | last <;>
      obtain ⟨front, rfl⟩ := List.getLast?_eq_some_iff.mp last <;>
      rw [List.reverse_append]
    · exact Text.trailingWidth_encode _ '\x7d' front.reverse
    · exact Text.trailingWidth_encode _ ']' front.reverse

/-- The requests of a daemon's input are the lines that are not blank, if these are framed. -/
theorem requests_join {requests lines : List Text} (strings : ∀ line ∈ lines, IsString line)
    (whole : ∀ line ∈ lines, Byte.newline ∉ line) (framed : ∀ request ∈ requests, IsFramed request)
    (between : (lines.filter fun line => !(Text.trim line).isEmpty) = requests) :
    Service.requests (Text.join [Byte.newline] lines) = requests := by
  have split : (((Text.join [Byte.newline] lines).splitOn Byte.newline).takeWhile fun line =>
      (Text.toString? line).isSome).filter (fun line => !(Text.trim line).isEmpty) = requests := by
    rw [Text.join_eq_intercalate]
    by_cases nothing : lines = []
    · subst nothing
      exact between
    · have read : ∀ line ∈ lines, line.toString?.isSome = true := fun line member =>
        isSome_toString?_iff.mpr (strings line member)
      rw [List.splitOn_intercalate _ whole nothing, List.takeWhile_eq_self_iff.mpr read, between]
  calc Service.requests (Text.join [Byte.newline] lines)
      = ((((Text.join [Byte.newline] lines).splitOn Byte.newline).takeWhile fun line =>
          (Text.toString? line).isSome).filter
            fun line => !(Text.trim line).isEmpty).map Text.trim := by
        rw [Service.requests, List.filter_map]
        rfl
    _ = requests.map Text.trim := by rw [split]
    _ = requests := by
        rw [List.map_congr_left fun request member => (framed request member).trim_eq, List.map_id']

variable (parseError : Text → Text)

/-- What the service writes when it is asked once is one line. -/
theorem output_once {arguments : List Text} (once : daemonFlag ∉ arguments) {input : Text}
    (string : IsString input) : output parseError arguments input =
      (handle parseError input).print ++ [Byte.newline] := by
  simp [output, run, once, isSome_toString?_iff.mpr string]

/-- A daemon that is given framed requests on lines of their own, with any blank lines among them,
writes the lines that the service writes when it is asked once for each of them. -/
theorem lines_output_daemon {asked once requests lines : List Text} (daemon : daemonFlag ∈ asked)
    (single : daemonFlag ∉ once) (strings : ∀ line ∈ lines, IsString line)
    (whole : ∀ line ∈ lines, Byte.newline ∉ line) (framed : ∀ request ∈ requests, IsFramed request)
    (between : (lines.filter fun line => !(Text.trim line).isEmpty) = requests) :
    (output parseError asked (Text.join [Byte.newline] lines)).lines =
        requests.map (output parseError once) ∧
      ∀ request ∈ requests, output parseError once request =
          (handle parseError request).print ++ [Byte.newline] ∧
        Byte.newline ∉ (handle parseError request).print := by
  have line (request : Text) : Byte.newline ∉ (handle parseError request).print :=
    Json.newline_not_mem_print _
  have alone : ∀ request ∈ requests, output parseError once request =
      (handle parseError request).print ++ [Byte.newline] := by
    intro request member
    rw [← between] at member
    exact output_once parseError single (strings request (List.mem_of_mem_filter member))
  have written : output parseError asked (Text.join [Byte.newline] lines) =
      (requests.map (output parseError once)).flatten := by
    rw [output, run, if_pos (List.contains_iff_mem.mpr daemon),
      requests_join strings whole framed between, List.flatMap_map, List.map_congr_left alone,
      List.flatMap_def]
  refine ⟨?_, fun request member => ⟨alone request member, line request⟩⟩
  rw [written, List.map_congr_left alone, Text.lines, linesBy_flatten]
  · intro response member
    obtain ⟨request, -, rfl⟩ := List.mem_map.mp member
    exact ⟨by simp, by simpa using line request⟩
  · exact List.pairwise_map.mpr (List.pairwise_of_forall fun request _ => by simp)

/-- What the reader of JSON says of a request without fields, and of one whose source is `1`. -/
def sampleError (input : Text) : Text :=
  if input = Text.ofString "\x7b\x7d" then "missing field `source` at line 1 column 2"
  else "invalid type: integer `1`, expected a string at line 1 column 2"

/-- A daemon passes over blank lines, and a line end in a script does not end a response. What is
said of a request that does not parse depends on the request. -/
theorem lines_output_daemon_blanks :
    (output sampleError [daemonFlag]
      (Text.join [Byte.newline] ["[\"\",\"a\\nb\"]", " \r", "", "\x7b\x7d", "[1]", ""])).lines =
      [Text.ofString
          "\x7b\"ok\":true,\"script\":\"a\\nb\",\"bindings\":\x7b\x7d,\"localNames\":[]\x7d\n",
        Text.ofString
          "\x7b\"ok\":false,\"error\":\"missing field `source` at line 1 column 2\"\x7d\n",
        Text.ofString ("\x7b\"ok\":false,\"error\":\"invalid type: integer `1`, " ++
          "expected a string at line 1 column 2\"\x7d\n")] := by
  let lines : List Text := ["[\"\",\"a\\nb\"]", " \r", "", "\x7b\x7d", "[1]", ""]
  let requests : List Text := ["[\"\",\"a\\nb\"]", "\x7b\x7d", "[1]"]
  have daemon : daemonFlag ∈ [daemonFlag] := by decide
  have single : daemonFlag ∉ ([] : List Text) := by decide
  have strings : ∀ line ∈ lines, IsString line := by
    simp only [lines, List.forall_mem_cons, isString_ofString, List.not_mem_nil, false_imp_iff,
      implies_true, and_self]
  have whole : ∀ line ∈ lines, Byte.newline ∉ line := by decide +kernel
  have framed : ∀ request ∈ requests, IsFramed request := by decide +kernel
  have between : (lines.filter fun line => !(Text.trim line).isEmpty) = requests := by
    decide +kernel
  obtain ⟨written, alone⟩ :=
    lines_output_daemon sampleError daemon single strings whole framed between
  rw [written, List.map_congr_left fun request member => (alone request member).1]
  decide +kernel

end Service

end BareComponent
