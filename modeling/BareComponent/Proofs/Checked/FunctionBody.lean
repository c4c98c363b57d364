import BareComponent.Proofs.Checked.Cut
import BareComponent.Proofs.SourceOrder
import BareComponent.Scope.FunctionBody

/-! # Finding function bodies never cuts a character

The beginnings of functions are found in a string, and what follows them is looked for behind ASCII
bytes. Each function therefore begins between two characters, and its body is whole.
-/

namespace BareComponent

namespace Checked

open Text Pattern

/-- The inside of the braces that open at a position. -/
def bracedAt (text : Text) (position : Nat) : Checked (Option Span) :=
  if text[position]? = some Byte.openBrace then do
    let closing ← closingOf text position
    return closing.map fun closing => ⟨position + 1, closing⟩
  else return none

/-- The body that follows the parameters whose parenthesis opens at a position. -/
def afterParameters (text : Text) (position : Nat) : Checked (Option Span) := do
  match ← closingOf text position with
  | none => return none
  | some closing =>
    let next := text.skipBlanks (closing + 1)
    if text[next]? = some Byte.colon then
      let rest ← cut text ⟨next, text.length⟩
      match FunctionBody.returnType.matchAt? (.ofText rest) with
      | none => return none
      | some found =>
        let brace ← minus found.span.stop 1
        bracedAt text (next + brace)
    else bracedAt text next

/-- The function that a match of the word `function` begins. -/
def ofHead (text : Text) (found : Match Unit) : Checked (Option FunctionBody) := do
  let parameters ← minus found.span.stop 1
  let body ← afterParameters text parameters
  return body.map fun body => ⟨.function, found.span.start, body⟩

/-- The function whose arrow stands at a position. -/
def ofArrow (text : Text) (position : Nat) : Checked (Option FunctionBody) :=
  let next := text.skipBlanks (position + 2)
  if text[next]? = some Byte.openBrace then do
    let body ← bracedAt text next
    return body.map fun body => ⟨.arrowBlock, position, body⟩
  else return some ⟨.arrowExpression, position, ⟨next, text.expressionEnd next⟩⟩

/-- Whether a name at a position of a text can be that of a method. -/
def isMethodName (text name : Text) (position : Nat) : Checked Bool := do
  if FunctionBody.blockOpeners.contains name then return false
  if (← byteBefore text position).any Byte.continuesIdentifier then return false
  let before ← cut text ⟨0, position⟩
  return !before.trimEnd.endsWith "function"

/-- The function that is written as a method where a name and a parenthesis are found. -/
def ofMethod (text : Text) (found : Match Span) : Checked (Option FunctionBody) := do
  let name ← cut text found.value
  if ← isMethodName text name found.span.start then
    let parameters ← minus found.span.stop 1
    let body ← afterParameters text parameters
    return body.map fun body => ⟨.method, found.span.start, body⟩
  else return none

/-- All function bodies of a text, in the order of where they begin. -/
def functionBodies (text : Text) : Checked (List FunctionBody) := do
  let functions ← collect (ofHead text) (FunctionBody.functionHead.search text)
  let arrows ← collect (ofArrow text ·.span.start) ((Pattern.literal "=>").search text)
  let methods ← collect (ofMethod text) (FunctionBody.methodHead.search text)
  return SourceOrder.sort (·.start) (functions ++ arrows ++ methods)

section Heads

variable {characters : List Char}

theorem steps_functionHead : Steps characters FunctionBody.functionHead :=
  (Steps.check _).bind fun _ => (Steps.literal (isString_ofString _)).bind fun _ =>
    (Steps.check _).bind fun _ => (Steps.run _).bind fun _ =>
      (Steps.literal (isString_ofString _)).optional.bind fun _ => (Steps.run _).bind fun _ =>
        Steps.name.optional.bind fun _ => (Steps.run _).bind fun _ =>
          Steps.literal (isString_ofString _)

theorem ensures_methodHead :
    Ensures characters FunctionBody.methodHead (encode characters).IsWhole :=
  Steps.name.spanned.bind fun _ whole => (Steps.run _).bind fun _ =>
    (Steps.literal (isString_ofString _)).bind fun _ => .pure whole

end Heads

variable {text : Text} {position : Nat}

/-- The search for a braced body has no fault. -/
theorem bracedAt_eq_ok (text : Text) (position : Nat) :
    bracedAt text position = .ok (FunctionBody.bracedAt? text position) := by
  rw [bracedAt, FunctionBody.bracedAt?, closingOf_eq_ok]
  split <;> rfl

private theorem isBoundary_of_isClose (string : IsString text) {b : UInt8}
    (here : text[position]? = some b) (closes : Byte.isClose b = true) :
    text.IsBoundary position ∧ text.IsBoundary (position + 1) :=
  isBoundary_of_ascii string here (shown_of_isClose closes).1

/-- A braced body is cut along whole characters. -/
theorem isWhole_of_bracedAt? (string : IsString text) {body : Span}
    (braced : FunctionBody.bracedAt? text position = some body) : text.IsWhole body := by
  rw [FunctionBody.bracedAt?] at braced
  split at braced
  · next opens =>
    obtain ⟨closing, found, rfl⟩ := Option.map_eq_some_iff.mp braced
    obtain ⟨behind, b, here, closes⟩ := exists_of_closingOf? found
    exact (isBoundary_of_ascii string opens (by decide)).2.isWhole
      (isBoundary_of_isClose string here closes).1 behind
  · contradiction

/-- The body behind some parameters is cut along whole characters. -/
theorem isWhole_of_afterParameters? (string : IsString text) {body : Span}
    (found : FunctionBody.afterParameters? text position = some body) : text.IsWhole body := by
  obtain ⟨closing, -, found⟩ := Option.bind_eq_some_iff.mp found
  dsimp only at found
  split at found
  · obtain ⟨type, -, braced⟩ := Option.bind_eq_some_iff.mp found
    exact isWhole_of_bracedAt? string braced
  · exact isWhole_of_bracedAt? string found

/-- The search for the body behind some parameters has no fault: the return type that is cut off ends
behind the place where it is looked for. -/
theorem afterParameters_eq_ok (string : IsString text) (position : Nat) :
    afterParameters text position = .ok (FunctionBody.afterParameters? text position) := by
  rw [afterParameters, FunctionBody.afterParameters?, closingOf_eq_ok, ok_bind]
  cases found : text.closingOf? position with
  | none => rfl
  | some closing =>
    obtain ⟨-, b, here, closes⟩ := exists_of_closingOf? found
    have next := (isBoundary_of_isClose string here closes).2.skipBlanks string
    have rest := next.isWhole (isBoundary_length text) next.le_length
    simp only [Option.bind_eq_bind, Option.bind_some, cut_eq_ok rest, slice, List.take_length]
    split
    · rw [ok_bind]
      cases type : FunctionBody.returnType.matchAt?
        (.ofText (text.drop (text.skipBlanks (closing + 1)))) with
      | none => rfl
      | some found =>
        obtain ⟨_, -, span, forward⟩ := exists_of_matchAt? type
        have positive : 1 ≤ found.span.stop := by
          rw [span]
          exact Nat.one_le_of_lt forward
        simp only [minus_eq_ok positive, ok_bind, Option.bind_some, Nat.add_sub_assoc positive]
        exact bracedAt_eq_ok ..
    · exact bracedAt_eq_ok ..

private theorem ofHead_eq_ok {characters : List Char} {found : Match Unit}
    (member : found ∈ FunctionBody.functionHead.search (encode characters)) :
    ofHead (encode characters) found =
      .ok ((FunctionBody.afterParameters? (encode characters) (found.span.stop - 1)).map
        fun body => ⟨.function, found.span.start, body⟩) := by
  obtain ⟨-, -, forward⟩ := steps_functionHead.search member
  rw [ofHead, minus_eq_ok (Nat.one_le_of_lt forward), ok_bind, afterParameters_eq_ok ⟨_, rfl⟩]
  rfl

/-- An arrow function is read without a fault. -/
theorem ofArrow_eq_ok (text : Text) (position : Nat) :
    ofArrow text position = .ok (FunctionBody.ofArrow? text position) := by
  simp only [ofArrow, FunctionBody.ofArrow?, bracedAt_eq_ok]
  split <;> rfl

/-- The check of a method's name has no fault if the name begins at a boundary. -/
theorem isMethodName_eq_ok (name : Text) (boundary : text.IsBoundary position) :
    isMethodName text name position = .ok (FunctionBody.isMethodName text name position) := by
  have before := (isBoundary_zero text).isWhole boundary (Nat.zero_le _)
  rw [isMethodName, FunctionBody.isMethodName, byteBefore_eq_ok boundary.le_length,
    cut_eq_ok before]
  cases FunctionBody.blockOpeners.contains name with
  | true => rfl
  | false =>
    cases following : (text.take position).getLast?.any Byte.continuesIdentifier with
    | true => simp [following]
    | false => simp [following, slice]

private theorem ofMethod_eq_ok {characters : List Char} {found : Match Span}
    (member : found ∈ FunctionBody.methodHead.search (encode characters)) :
    ofMethod (encode characters) found =
      .ok (if FunctionBody.isMethodName (encode characters)
          ((encode characters).slice found.value) found.span.start then
        (FunctionBody.afterParameters? (encode characters) (found.span.stop - 1)).map
          fun body => ⟨.method, found.span.start, body⟩
      else none) := by
  obtain ⟨name, whole, forward⟩ := ensures_methodHead.search member
  rw [ofMethod, cut_eq_ok name, ok_bind, isMethodName_eq_ok _ whole.starts, ok_bind]
  split
  · rw [minus_eq_ok (Nat.one_le_of_lt forward), ok_bind, afterParameters_eq_ok ⟨_, rfl⟩]
    rfl
  · rfl

/-- The search for function bodies has no fault on a string. -/
theorem functionBodies_eq_ok (string : IsString text) :
    functionBodies text = .ok (FunctionBody.all text) := by
  obtain ⟨characters, rfl⟩ := string
  rw [functionBodies, collect_eq_ok fun found member => ofHead_eq_ok member, ok_bind,
    collect_eq_ok fun found _ => ofArrow_eq_ok _ found.span.start, ok_bind,
    collect_eq_ok fun found member => ofMethod_eq_ok member]
  rfl

/-- An arrow takes two bytes. -/
theorem stop_of_mem_search_arrow {characters : List Char} {found : Match Unit}
    (member : found ∈ (Pattern.literal "=>").search (encode characters)) :
    found.span.stop = found.span.start + 2 := by
  obtain ⟨before, after, -, here⟩ := exists_of_mem_search member
  obtain ⟨next, matched, span, -⟩ := exists_of_matchAt? here
  have arrow : ("=>" : Text) = encode ['=', '>'] := rfl
  rw [arrow] at matched
  obtain ⟨rest, rfl, rfl⟩ := mem_literal.mp matched
  have length : (encode ['=', '>']).length = 2 := rfl
  simp only [span, Cursor.position_between, encode_append, List.length_append, length]

private theorem isWhole_of_ofArrow? (string : IsString text) {function : FunctionBody}
    (starts : text.IsBoundary position) (stops : text.IsBoundary (position + 2))
    (found : FunctionBody.ofArrow? text position = some function) :
    text.IsBoundary function.start ∧ text.IsWhole function.body := by
  have next := stops.skipBlanks string
  rw [FunctionBody.ofArrow?] at found
  split at found
  · obtain ⟨body, braced, rfl⟩ := Option.map_eq_some_iff.mp found
    exact ⟨starts, isWhole_of_bracedAt? string braced⟩
  · obtain rfl := Option.some.inj found
    obtain ⟨ends, ordered⟩ := isBoundary_expressionEnd string next.le_length
    exact ⟨starts, next.isWhole ends ordered⟩

/-- A function begins between two characters, and its body takes whole characters. -/
theorem isWhole_of_mem_all (string : IsString text) {function : FunctionBody}
    (member : function ∈ FunctionBody.all text) :
    text.IsBoundary function.start ∧ text.IsWhole function.body := by
  obtain ⟨characters, rfl⟩ := string
  have string : IsString (encode characters) := ⟨characters, rfl⟩
  rcases List.mem_append.mp (SourceOrder.mem_of_mem_sort member) with found | method
  · rcases List.mem_append.mp found with word | arrow
    · obtain ⟨found, inside, here⟩ := List.mem_filterMap.mp word
      obtain ⟨body, braced, rfl⟩ := Option.map_eq_some_iff.mp here
      exact ⟨(steps_functionHead.search inside).2.1.starts,
        isWhole_of_afterParameters? string braced⟩
    · obtain ⟨found, inside, here⟩ := List.mem_filterMap.mp arrow
      obtain ⟨-, whole, -⟩ := (Steps.literal (isString_ofString "=>")).search inside
      refine isWhole_of_ofArrow? string whole.starts ?_ here
      rw [← stop_of_mem_search_arrow inside]
      exact whole.stops
  · obtain ⟨found, inside, here⟩ := List.mem_filterMap.mp method
    split at here
    · obtain ⟨body, braced, rfl⟩ := Option.map_eq_some_iff.mp here
      exact ⟨(ensures_methodHead.search inside).2.1.starts,
        isWhole_of_afterParameters? string braced⟩
    · contradiction

end Checked

end BareComponent
