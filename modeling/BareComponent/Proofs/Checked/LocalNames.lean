import BareComponent.Proofs.Checked.FunctionBody
import BareComponent.Proofs.Mask.Aligned
import BareComponent.Scope.LocalNames

/-! # Collecting local names never cuts a character

Style blocks are hidden as a whole, so the source that is masked is a string. Names are found in
bodies that are cut out of the mask, and the stretch in front of a function in which its parameter
is looked for begins at the next boundary, wherever its fifty bytes begin.
-/

namespace BareComponent.Checked

open Text Pattern

def hideStyles (source : Text) : Checked Text := do
  let edits ← (LocalNames.styleBlock.search source).mapM fun found => do
    let block ← cut source found.span
    return (found.span, block.blanked)
  replaceFrom source 0 edits

/-- Whether what stands at a span of a body is an assignment to a name. -/
def isAssignment (body : Text) (span : Span) : Checked Bool := do
  let before ← byteBefore body span.start
  return !before.any (fun b => Byte.continuesIdentifier b || b == Byte.dot) &&
    body[span.stop]? != some Byte.equals

/-- The name that is assigned to where a name and an equals sign are found. -/
def ofAssignment (body : Text) (found : Match Span) : Checked (Option Text) := do
  if ← isAssignment body found.span then
    let name ← cut body found.value
    return some name
  else return none

/-- The names that a body declares with a value or assigns to. -/
def assigned (body : Text) : Checked (List Text) := do
  let declared ← (LocalNames.declaration.search body).mapM fun found => cut body found.value
  let others ← collect (ofAssignment body) (LocalNames.assignment.search body)
  return declared ++ others

/-- The identifiers that a destructuring pattern just in front of a function takes out. -/
def destructured (text : Text) (start : Nat) : Checked (List Text) := do
  let window ← cut text (LocalNames.windowBefore text start)
  match LocalNames.parameterPattern.find? window with
  | some found =>
    let inside ← cut window found.value
    return ((inside.splitOn Byte.comma).map LocalNames.propertyOf).filter Text.isIdentifier
  | none => return []

/-- The names that a function of a mask makes local. -/
def ofFunction (masked : Text) (function : FunctionBody) : Checked (List Text) := do
  let body ← cut masked function.body
  let names ← assigned body
  let parameters ← destructured masked function.start
  return names ++ parameters

def localNames (source : Text) : Checked NameSet := do
  let source ← hideStyles source
  let masked ← mask source
  let functions ← functionBodies masked
  let names ← functions.mapM (ofFunction masked)
  return NameSet.ofList names.flatten

section Patterns

variable {characters : List Char}

theorem steps_styleBlock : Steps characters LocalNames.styleBlock :=
  (Steps.literal (isString_ofString _)).bind fun _ => (Steps.check _).bind fun _ =>
    (Steps.run _).bind fun _ => (Steps.literal (isString_ofString _)).bind fun _ =>
      (Steps.upTo (b := Byte.less) (by decide)).bind fun _ => Steps.literal (isString_ofString _)

theorem ensures_declaration :
    Ensures characters LocalNames.declaration (encode characters).IsWhole :=
  (Steps.check _).bind fun _ =>
    (Steps.oneOf (by simp [isString_ofString])).bind fun _ => (Steps.run1 _).bind fun _ =>
      Steps.name.spanned.bind fun _ whole => (Steps.run _).bind fun _ =>
        (Steps.literal (isString_ofString _)).bind fun _ => .pure whole

theorem ensures_assignment :
    Ensures characters LocalNames.assignment (encode characters).IsWhole :=
  Steps.name.spanned.bind fun _ whole => (Steps.run _).bind fun _ =>
    (Steps.literal (isString_ofString _)).bind fun _ => .pure whole

theorem ensures_parameterPattern :
    Ensures characters LocalNames.parameterPattern (encode characters).IsWhole := by
  have openBrace : IsString [Byte.openBrace] := ⟨['{'], rfl⟩
  have closeBrace : IsString [Byte.closeBrace] := ⟨['}'], rfl⟩
  have type : Steps characters (do
      Pattern.literal ":"
      Pattern.run <| .noneOf
        [Byte.openParen, Byte.closeParen, Byte.openBrace, Byte.closeBrace, Byte.equals]) :=
    (Steps.literal (isString_ofString _)).bind fun _ => Steps.run _
  exact (Steps.literal (isString_ofString _)).bind fun _ => (Steps.run _).bind fun _ =>
    (Steps.literal openBrace).bind fun _ => (Steps.run _).spanned.bind fun _ whole =>
      (Steps.literal closeBrace).bind fun _ => (Steps.run _).bind fun _ =>
        type.optional.bind fun _ => (Steps.literal (isString_ofString _)).bind fun _ =>
          (Steps.run _).bind fun _ => (Steps.check _).bind fun _ => .pure whole

end Patterns

variable {text : Text}

private theorem isString_blanked (text : Text) : IsString text.blanked := by
  refine isString_of_low fun b member => ?_
  obtain ⟨c, -, rfl⟩ := List.mem_map.mp member
  unfold Byte.blanked
  split <;> decide

/-- Hiding the style blocks of a string leaves a string. -/
theorem hideStyles_eq_ok (string : IsString text) :
    hideStyles text = .ok (LocalNames.hideStyles text) ∧ IsString (LocalNames.hideStyles text) := by
  obtain ⟨characters, rfl⟩ := string
  have string : IsString (encode characters) := ⟨characters, rfl⟩
  have blocks : ∀ found ∈ LocalNames.styleBlock.search (encode characters),
      (encode characters).IsWhole found.span := fun found member =>
    (steps_styleBlock.search member).2.1
  let edits := (LocalNames.styleBlock.search (encode characters)).map fun found =>
    (found.span, ((encode characters).slice found.span).blanked)
  have rising : edits.Pairwise (·.1.stop ≤ ·.1.start) :=
    List.pairwise_map.mpr steps_styleBlock.pairwise_search
  have whole : ∀ edit ∈ edits, 0 ≤ edit.1.start ∧ (encode characters).IsWhole edit.1 ∧
      IsString edit.2 := by
    intro edit member
    obtain ⟨found, inside, rfl⟩ := List.mem_map.mp member
    exact ⟨Nat.zero_le _, blocks found inside, isString_blanked _⟩
  constructor
  · have each : ∀ found ∈ LocalNames.styleBlock.search (encode characters), (do
        let block ← cut (encode characters) found.span
        return (found.span, block.blanked)) =
          .ok (found.span, ((encode characters).slice found.span).blanked) := by
      intro found member
      rw [cut_eq_ok (blocks found member)]
      rfl
    rw [hideStyles, mapM_eq_ok each, ok_bind]
    exact replaceFrom_eq_ok (isBoundary_zero _)
      (fun edit member => ⟨(whole edit member).1, (whole edit member).2.1⟩) rising
  · exact isString_replaceFrom string (isBoundary_zero _) whole rising

private theorem ofAssignment_eq_ok {characters : List Char} {found : Match Span}
    (member : found ∈ LocalNames.assignment.search (encode characters)) :
    ofAssignment (encode characters) found =
      .ok (if LocalNames.isAssignment (encode characters) found.span then
        some ((encode characters).slice found.value) else none) := by
  obtain ⟨name, whole, -⟩ := ensures_assignment.search member
  have assigns : isAssignment (encode characters) found.span =
      .ok (LocalNames.isAssignment (encode characters) found.span) := by
    rw [isAssignment, byteBefore_eq_ok whole.starts.le_length]
    rfl
  rw [ofAssignment, assigns, ok_bind, cut_eq_ok name]
  split <;> rfl

/-- The search for assigned names has no fault. -/
theorem assigned_eq_ok (string : IsString text) :
    assigned text = .ok (LocalNames.assigned text) := by
  obtain ⟨characters, rfl⟩ := string
  have declared : ∀ found ∈ LocalNames.declaration.search (encode characters),
      cut (encode characters) found.value = .ok ((encode characters).slice found.value) :=
    fun found member => cut_eq_ok (ensures_declaration.search member).1
  rw [assigned, mapM_eq_ok declared, ok_bind,
    collect_eq_ok fun found member => ofAssignment_eq_ok member, ok_bind, LocalNames.assigned]
  simp only [← List.filterMap_eq_map, List.filterMap_filter]
  rfl

/-- The fifty bytes in front of a function are cut behind a character that they begin in. -/
theorem destructured_eq_ok (string : IsString text) {start : Nat}
    (boundary : text.IsBoundary start) :
    destructured text start = .ok (LocalNames.destructured text start) := by
  obtain ⟨begins, ordered⟩ := isBoundary_characterBoundary string boundary
    (Nat.sub_le start LocalNames.parameterReach)
  have whole : text.IsWhole (LocalNames.windowBefore text start) := begins.isWhole boundary ordered
  obtain ⟨characters, window⟩ := whole.isString string
  rw [destructured, LocalNames.destructured, cut_eq_ok whole, ok_bind, window]
  cases found : LocalNames.parameterPattern.find? (encode characters) with
  | none => rfl
  | some hit =>
    have inside := (ensures_parameterPattern.search (List.mem_of_mem_head? found)).1
    simp only [cut_eq_ok inside, ok_bind, pure_eq_ok]

private theorem ofFunction_eq_ok (string : IsString text) {function : FunctionBody}
    (member : function ∈ FunctionBody.all text) :
    ofFunction text function = .ok (LocalNames.assigned (text.slice function.body) ++
      LocalNames.destructured text function.start) := by
  obtain ⟨boundary, whole⟩ := isWhole_of_mem_all string member
  rw [ofFunction, cut_eq_ok whole, ok_bind, assigned_eq_ok (whole.isString string), ok_bind,
    destructured_eq_ok string boundary]
  rfl

/-- The local names of a source are collected without a fault. -/
theorem localNames_eq_ok (string : IsString text) :
    localNames text = .ok (LocalNames.ofSource text) := by
  obtain ⟨hidden, source⟩ := hideStyles_eq_ok string
  have masked := source.aligned.maskIsString
  rw [localNames, hidden, ok_bind, mask_eq_ok source, ok_bind, functionBodies_eq_ok masked, ok_bind,
    mapM_eq_ok fun function member => ofFunction_eq_ok masked member, ok_bind, ← List.flatMap_def]
  rfl

end BareComponent.Checked
