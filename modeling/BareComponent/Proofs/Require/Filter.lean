import BareComponent.Proofs.Mask.Front
import BareComponent.Proofs.Require.Line

/-! # Stripping line by line

A search over the whole mask settles on the lines that end in a call, each for itself, so stripping
a script is a filter of its lines: a line is kept if the line of the mask in its place is no require
line. A script in which `require(` does not occur has no require line and is kept as it is.
-/

namespace BareComponent.RequireLine

open Pattern Text

/-- The lines of a text in whose place a mask of it has no require line, put together again. -/
def keptByMask (text masked : Text) : Text :=
  ((text.lines.zip masked.lines).filter fun line => !isRequireLine line.2).flatMap Prod.fst

/-- Behind whole lines the rest of a text is filtered by itself. -/
theorem keptByMask_append {first firstMasked : Text} (whole : IsLines first)
    (maskedWhole : IsLines firstMasked)
    (places : first.lines.length = firstMasked.lines.length) (second secondMasked : Text) :
    keptByMask (first ++ second) (firstMasked ++ secondMasked) =
      keptByMask first firstMasked ++ keptByMask second secondMasked := by
  rw [keptByMask, whole.lines_append, maskedWhole.lines_append, List.zip_append places,
    List.filter_append, List.flatMap_append]
  rfl

/-- The lines of a mask stand in the places of the lines of the text. -/
theorem map_length_lines_mask (text : Text) :
    text.mask.lines.map List.length = text.lines.map List.length := by
  have texts : (ScriptLine.all text).map ScriptLine.text = text.lines :=
    ScriptLine.map_text_read ..
  rw [← texts, ← ScriptLine.map_mask_all, List.map_map, List.map_map]
  exact List.map_congr_left fun line _ => Scanner.scan_length ..

/-- Stripping keeps the lines that the mask of the script lets stay. -/
theorem strip_eq_keptByMask (script : String) :
    strip script = keptByMask script (Text.mask script) := by
  have texts : (ScriptLine.all script).map ScriptLine.text = Text.lines script :=
    ScriptLine.map_text_read ..
  rw [strip_eq, keptLines, keptByMask, ← texts, ← ScriptLine.map_mask_all, List.zip_map',
    List.filter_map, List.flatMap_map]
  rfl

/-- Stripping keeps the lines whose place in the mask has no line that ends in a call, and it keeps
the same where the search is not left out. -/
theorem strip_filters_lines (script : String) :
    strip script = (((Text.lines script).zip (Text.mask script).lines).filter
        fun line => !isRequireLine line.2).flatMap Prod.fst ∧
      (Text.mask script).lines.map List.length = (Text.lines script).map List.length ∧
      (∀ line ∈ (Text.mask script).lines, isRequireLine line = true ↔
        ∃ (front : List Char) (call : Call), line = encode (front ++ call.spelled) ∧
          isWord front.getLast? = false) ∧
      strip script = Text.replace script
        ((pattern.search (Text.mask script)).map fun found => (found.span, [])) := by
  refine ⟨strip_eq_keptByMask script, map_length_lines_mask script, fun line member =>
    isRequireLine_iff member, ?_⟩
  have searched : (pattern.search (Text.mask script)).map (fun found => (found.span, ([] : Text))) =
      (spans script).map fun span => (span, []) := by
    rw [spans_eq, ← map_span_search, List.map_map]
    rfl
  rw [searched, strip]

/-- Of two calls on a line only the last one decides, and in front of a word it is none. -/
example : strip "a = require('x') + require(\"y\") ; \r\nmyrequire('z')\nrequire('w')" =
    Text.ofString "myrequire('z')\n" := by
  decide +kernel

end BareComponent.RequireLine
