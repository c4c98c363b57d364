import BareComponent.Proofs.Checked.Require
import BareComponent.Proofs.Component.Characters
import BareComponent.Proofs.Component.Environment
import BareComponent.Proofs.Json.Quoted
import BareComponent.Proofs.Require.Tail
import BareComponent.Proofs.ReturnFilter.Tail

/-! # What a compiled component ends with

A compiled script ends with the line that returns the options, and the line in front of it stores
the template as a printed string. The last line shows no closing bracket in any state of the
scanner, so neither stripping nor filtering changes it, whatever stands in front. Of the template
nothing is shown but its quotes if the scanner comes to it in code, so behind a closed script it
takes no part in either pass.
-/

namespace BareComponent

open Text

namespace ComponentScript

variable {source script template : Text}

def returnLine : Text := "return __component__;"

/-- What the script of a component with a template ends with: the line that stores the template and
the line that returns the options. -/
def lastLines (template : Text) : Text := templatePart (some template) ++ returnLine

/-- The script of a component is put together from what stands in front of the template, the line of
the template and the line that returns the component. -/
theorem ofBlocks_eq (blocks : Blocks) :
    ofBlocks blocks = front blocks ++ templatePart blocks.template ++ returnLine := by
  have last : returnLine = ofString "return " ++ optionsName ++ [Byte.semicolon] := rfl
  simp only [ofBlocks, front, last, List.append_assoc]

/-- Whatever is compiled is made of the blocks of its source. -/
theorem eq_ofBlocks_of_compile (success : compile source = .ok script) :
    script = ofBlocks (Blocks.ofSource source) := by
  rw [compile] at success
  split at success
  · contradiction
  split at success
  · exact (Except.ok.inj success).symm
  · split at success
    · exact (Except.ok.inj success).symm
    · contradiction

/-- The part that stores the template is a string of whole lines. -/
theorem isString_templatePart {template : Option Text} (string : ∀ text ∈ template, IsString text) :
    IsString (templatePart template) ∧ IsLines (templatePart template) := by
  cases template with
  | none => exact ⟨⟨[], rfl⟩, .nil⟩
  | some text =>
    have target := (isString_ofString "__component__").append (isString_ofString ".template = ")
    exact ⟨(target.append (isString_quoted (string text rfl))).append isString_newline,
      isLines_append_newline _⟩

/-- The line that stores a template shows its quotes and what is in front of them. -/
private def shownLastLines (template : Text) : Text :=
  ofString "__component__.template = " ++ (Byte.doubleQuote ::
    List.replicate (template.flatMap Byte.quoted).length Byte.space ++ [Byte.doubleQuote]) ++
    ofString "\nreturn __component__;"

theorem lastLines_eq (template : Text) : lastLines template =
    ofString "__component__.template = " ++ template.quoted ++
      ofString "\nreturn __component__;" := by
  have target : ofString "__component__.template = " =
      ofString "__component__" ++ ofString ".template = " := rfl
  have last : ofString "\nreturn __component__;" = [Byte.newline] ++ returnLine := rfl
  simp only [lastLines, templatePart, optionsName, target, last, List.append_assoc]

private theorem settles_lastLines (template : Text) :
    Scanner.Settles (lastLines template) (shownLastLines template) := by
  rw [lastLines_eq]
  refine Scanner.Settles.append (.append ?target (Scanner.settles_printed template)) ?last
  case target => exact Scanner.settles_plain (by decide +kernel)
  case last => exact Scanner.settles_plain (by decide +kernel)

/-- Scanned as code, the end of a component shows no closing bracket, whatever the template is. -/
theorem unclosed_lastLines (template : Text) :
    ∀ b ∈ (lastLines template).mask, Byte.isClose b = false := by
  have quotes : ∀ b ∈ Byte.doubleQuote :: List.replicate (template.flatMap Byte.quoted).length
      Byte.space ++ [Byte.doubleQuote], Byte.isClose b = false := by
    intro b member
    simp only [List.mem_append, List.mem_cons, List.mem_replicate, List.not_mem_nil,
      or_false] at member
    rcases member with (rfl | ⟨-, rfl⟩) | rfl <;> decide
  rw [mask_eq_scan, (settles_lastLines template none).1, shownLastLines]
  exact List.forall_mem_append.mpr ⟨List.forall_mem_append.mpr
    ⟨by decide +kernel, quotes⟩, by decide +kernel⟩

/-- The end of a component is two lines. -/
theorem lines_lastLines (template : Text) : (lastLines template).lines =
    [ofString "__component__.template = " ++ template.quoted ++ [Byte.newline],
      ofString "return __component__;"] := by
  have free : Byte.newline ∉ ofString "__component__.template = " ++ template.quoted :=
    List.not_mem_append (by decide +kernel) (newline_not_mem_quoted template)
  have last : ofString "\nreturn __component__;" =
      Byte.newline :: ofString "return __component__;" := rfl
  rw [lastLines_eq, last, lines_append_cons free]
  exact congrArg _ (by decide +kernel)

/-- The template is isolated from what is done to a script. The script of a component with a
template ends with the line that stores the printed template and the line that returns the options,
and the printed template is read back as the template. If what stands in front of these two lines is
closed, they add no require site, and they are neither stripped nor filtered. -/
theorem template_isolated {source : String} {blocks : Blocks} {template script : Text}
    (taken : Blocks.ofSource (ofString source) = blocks) (present : blocks.template = some template)
    (success : compile (ofString source) = .ok script) :
    script = front blocks ++ lastLines template ∧
    script.lines = (front blocks).lines ++
      [ofString "__component__.template = " ++ template.quoted ++ [Byte.newline],
        ofString "return __component__;"] ∧
    Json.ofText? Json.textReader template.quoted = some template ∧
    ((front blocks).LexicallyClosed →
      RequireSite.all script = RequireSite.all (front blocks) ∧
      RequireLine.strip script = RequireLine.strip (front blocks) ++ lastLines template ∧
      ∀ names, ReturnFilter.apply names script =
        ReturnFilter.apply names (front blocks) ++ lastLines template) := by
  subst taken
  obtain ⟨string, whole⟩ := isString_front (isString_ofString source)
  have templateString := isString_template (isString_ofString source) present
  have tailString : IsString (lastLines template) :=
    (isString_templatePart (fun text found => Option.some.inj found ▸ templateString)).1.append
      (isString_ofString "return __component__;")
  have unclosed := unclosed_lastLines template
  have noCall : Byte.closeParen ∉ (lastLines template).mask := fun member =>
    absurd (unclosed _ member) (by decide)
  obtain rfl : script = front (Blocks.ofSource (ofString source)) ++ lastLines template := by
    rw [eq_ofBlocks_of_compile success, ofBlocks_eq, present, lastLines, List.append_assoc]
  refine ⟨rfl, ?_, Json.ofText?_quoted template, fun closed => ?_⟩
  · rw [whole.lines_append, lines_lastLines]
  obtain ⟨behind, spelled⟩ := tailString.exists_string
  have apart := closed behind
  rw [← spelled] at apart
  have scanned := apart
  rw [Scanner.mask_append_of_isLines whole] at scanned
  have noCallBehind := List.append_cancel_left scanned ▸ noCall
  exact ⟨RequireSite.all_append string tailString apart noCall,
    RequireLine.strip_append string tailString whole noCallBehind,
    fun names => ReturnFilter.apply_append string tailString apart unclosed⟩

/-- A plain script in front of a template that holds quotes, backslashes, comment openers, a require
call and a return object. -/
private def hostileSource : String :=
  "<script>\nimport a from 'a'\nexport default \x7b name: 'x' \x7d\n</script>\n" ++
  "<template><p t=\"\\\"'`$\x7b/*//\">require('b') return \x7b a \x7d\n</p></template>"

private def hostileTemplate : Text :=
  "<p t=\"\\\"'`$\x7b/*//\">require('b') return \x7b a \x7d\n</p>"

/-- The front of this component is closed, so that its template is isolated. -/
theorem template_isolated_hostile : ∃ front script,
    compile (ofString hostileSource) = .ok script ∧ script = front ++ lastLines hostileTemplate ∧
    front.LexicallyClosed ∧ RequireSite.all script = RequireSite.all front ∧
    RequireLine.strip script = RequireLine.strip front ++ lastLines hostileTemplate ∧
    ∀ names, ReturnFilter.apply names script =
      ReturnFilter.apply names front ++ lastLines hostileTemplate := by
  have closed : (front (Blocks.ofSource (ofString hostileSource))).LexicallyClosed :=
    (isString_front (isString_ofString hostileSource)).2.lexicallyClosed (by decide +kernel)
  have present : (Blocks.ofSource (ofString hostileSource)).template = some hostileTemplate := by
    decide +kernel
  obtain ⟨script, success⟩ : ∃ script, compile (ofString hostileSource) = .ok script :=
    ⟨ofBlocks (Blocks.ofSource (ofString hostileSource)), by decide +kernel⟩
  obtain ⟨split, -, -, isolated⟩ := template_isolated rfl present success
  exact ⟨_, script, success, split, closed, isolated closed⟩

end ComponentScript

namespace Compiler

open ComponentScript

/-- Stripping and filtering keep the last line of a string of whole lines with a tail that has no
closing brackets. -/
theorem exists_passes_append {script tail : Text} (string : IsString script)
    (whole : IsLines script) (tailString : IsString tail)
    (unclosed : ∀ b ∈ tail, Byte.isClose b = false) (names : NameSet) :
    ∃ kept, IsLines kept ∧
      ReturnFilter.apply names (RequireLine.strip (script ++ tail)) = kept ++ tail := by
  have noCall : Byte.closeParen ∉
      Scanner.scan (Scanner.after Scanner.start none script) none tail := fun member =>
    absurd (ReturnFilter.unclosed_scan unclosed _ _ _ member) (by decide)
  obtain ⟨source, rfl⟩ := string.exists_string
  rw [RequireLine.strip_append string tailString whole noCall]
  exact ReturnFilter.exists_apply_append (Checked.strip_eq_ok source).2 tailString
    (RequireLine.isLines_strip string whole) unclosed

/-- The final script of every component that compiles ends with the line that returns the options,
whatever its blocks hold. -/
theorem getLast?_lines_of_compile (source : String) (frameworkName : Text) (framework : Table Json)
    (imported : Table Json) (registry : Option (Registry Json)) (component : CompiledComponent)
    (success : Compiler.compile ⟨ComponentScript.compile, frameworkName, framework⟩
      (ofString source) imported registry = .ok component) :
    component.script.lines.getLast? = some (ofString "return __component__;") := by
  obtain ⟨script, written, passed, -⟩ := exists_script_of_compile success
  obtain ⟨frontString, frontWhole⟩ := isString_front (isString_ofString source)
  obtain ⟨templateString, templateWhole⟩ := isString_templatePart
    fun text found => isString_template (isString_ofString source) found
  obtain ⟨kept, whole, shape⟩ := exists_passes_append (frontString.append templateString)
    (frontWhole.append templateWhole) (isString_ofString "return __component__;")
    (by decide +kernel) (LocalNames.ofSource (ofString source))
  have last : component.script = kept ++ returnLine := by
    rw [passed, eq_ofBlocks_of_compile written, ofBlocks_eq]
    exact shape
  have line : returnLine.lines = [returnLine] := by decide +kernel
  rw [last, whole.lines_append, line, List.getLast?_concat]
  rfl

/-- A script with open brackets and an open template literal, and a template with an open
comment. -/
private def openSource : String :=
  "<script setup>\nconst a = [ ( return \x7b a, `$\x7b\n</script>\n<template>'\\/*</template>"

/-- The last line stays behind all that is open here. -/
theorem getLast?_lines_of_compile_open : ∃ component : CompiledComponent,
    Compiler.compile ⟨ComponentScript.compile, "vue", .empty⟩ (ofString openSource) .empty none =
        .ok component ∧
      component.script.lines.getLast? = some (ofString "return __component__;") := by
  let compiler : Compiler := ⟨ComponentScript.compile, "vue", .empty⟩
  have written : compiler.toScript (ofString openSource) =
      .ok (ofBlocks (Blocks.ofSource (ofString openSource))) := by decide +kernel
  obtain ⟨component, success⟩ := exists_component_of_toScript written .empty none
  exact ⟨component, success, getLast?_lines_of_compile _ _ _ _ _ _ success⟩

end Compiler

end BareComponent
