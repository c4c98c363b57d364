import BareComponent.Proofs.Component.ImportParts

/-! # The line of a generated call

The statements that are generated for an import begin the line that the import began, and their
first line calls the module. Where the import binds one name to the module, the rest of the import's
line stands directly behind the call, without the semicolon that the import took; where it binds
nothing a semicolon stands between them, and where names are taken out of a temporary a line end
does. So the call is apart from what follows unless one name is bound and code follows on the line,
and the line is a require line if nothing else follows the call on it, or if it ends in another
call.
-/

namespace BareComponent

open Text Scanner RequireLine

namespace ComponentScript

/-- The edits of two lists of imports are those of the first and, with the count that it leaves,
those of the second. -/
theorem requireEdits_append (count : Nat) (first second : List Import) :
    requireEdits count (first ++ second) =
      ((requireEdits count first).1 ++ (requireEdits (requireEdits count first).2 second).1,
        (requireEdits (requireEdits count first).2 second).2) := by
  induction first generalizing count with
  | nil => rfl
  | cons statement first ih => simp [requireEdits, ih]

section Layout

private theorem getElem?_of_isLines {script before after : Text} (whole : IsLines before)
    (split : script = before ++ after) (positive : 0 < before.length) :
    script[before.length - 1]? = some Byte.newline := by
  obtain ⟨front, rfl⟩ := whole.eq_nil_or_exists.resolve_left (by rintro rfl; simp at positive)
  have stop : (front ++ [Byte.newline]).length - 1 = front.length := by simp
  rw [stop, split, List.append_assoc, List.getElem?_append_right le_rfl, Nat.sub_self]
  rfl

variable {script : Text} (string : IsString script)
include string

private theorem exists_last {statement : Import} (member : statement ∈ Import.all script) :
    ∃ last, script[statement.span.stop - 1]? = some last ∧ last ≠ Byte.newline := by
  obtain ⟨before, front, last, after, split, -, noLine, span⟩ := Import.exists_bytes string member
  refine ⟨last, ?_, noLine⟩
  have stop : statement.span.stop - 1 = (before ++ front).length := by
    rw [span]
    simp
  have shape : script = (before ++ front) ++ last :: after := by simp [split]
  rw [stop, shape, List.getElem?_append_right le_rfl, Nat.sub_self, List.getElem?_cons_zero]

private theorem stop_ne_start {statement : Import} (member : statement ∈ Import.all script)
    {before after : Text} (whole : IsLines before) (split : script = before ++ after) :
    statement.span.stop ≠ before.length := by
  intro same
  obtain ⟨-, nonempty⟩ := Import.isWhole_of_mem_all string member
  obtain ⟨last, reads, noLine⟩ := exists_last string member
  rw [same, getElem?_of_isLines whole split (by omega)] at reads
  exact noLine (Option.some.inj reads).symm

variable {earlier later : List Import} {statement : Import}
  (found : Import.all script = earlier ++ statement :: later)
include found

private theorem apart_of_found :
    (∀ other ∈ earlier, other.span.stop ≤ statement.span.start) ∧
      ∀ other ∈ later, statement.span.stop ≤ other.span.start := by
  have rising := Import.pairwise_all string
  rw [found, List.pairwise_append, List.pairwise_cons] at rising
  exact ⟨fun other member => rising.2.2 other member statement List.mem_cons_self,
    rising.2.1.1⟩

private theorem of_mem_earlier {count : Nat} {edit : Span × Text}
    (member : edit ∈ (requireEdits count earlier).1) :
    edit.1.start < edit.1.stop ∧ edit.1.stop ≤ statement.span.start := by
  obtain ⟨other, known, count, rfl⟩ := exists_of_mem_requireEdits member
  have there : other ∈ Import.all script := by simp [found, known]
  exact ⟨(Import.isWhole_of_mem_all string there).2, (apart_of_found string found).1 other known⟩

private theorem of_mem_later {count : Nat} {edit : Span × Text}
    (member : edit ∈ (requireEdits count later).1) :
    statement.span.stop + (script.lineBehind statement.span.stop).length ≤ edit.1.start ∧
      edit.1.start < script.length := by
  have here : statement ∈ Import.all script := by simp [found]
  have length : (script.take statement.span.stop).length = statement.span.stop :=
    List.length_take_of_le (Import.isWhole_of_mem_all string here).1.inside
  obtain ⟨rest, split, free, closed⟩ := exists_lineBehind script statement.span.stop
  obtain ⟨other, known, count, rfl⟩ := exists_of_mem_requireEdits member
  have there : other ∈ Import.all script := by simp [found, known]
  obtain ⟨before, front, last, after, shape, lines, -, span⟩ := Import.exists_bytes string there
  have start : other.span.start = before.length := by rw [span]
  have edge := stop_ne_start string here lines shape
  have behind := (apart_of_found string found).2 other known
  obtain ⟨whole, taken⟩ := Import.isWhole_of_mem_all string there
  refine ⟨?_, taken.trans_le whole.inside⟩
  have short := lines.length_le (split.symm.trans shape) free closed
    (length.symm ▸ Nat.lt_of_le_of_ne (start ▸ behind) edge)
  rwa [List.length_append, length, ← start] at short

private theorem isLines_front (count : Nat) :
    IsLines (replace (script.take statement.span.start) (requireEdits count earlier).1) := by
  have here : statement ∈ Import.all script := by simp [found]
  obtain ⟨before, front, last, after, split, whole, -, span⟩ := Import.exists_bytes string here
  have start : statement.span.start = before.length := by rw [span]
  have inFront : script.take statement.span.start = before := by
    rw [start, split]
    exact List.take_left
  have stops : ∀ edit ∈ (requireEdits count earlier).1,
      edit.1.start < edit.1.stop ∧ edit.1.stop < before.length := by
    intro edit member
    obtain ⟨forward, apart⟩ := of_mem_earlier string found member
    obtain ⟨other, inside, count, rfl⟩ := exists_of_mem_requireEdits member
    have there : other ∈ Import.all script := by simp [found, inside]
    have edge := stop_ne_start string there whole split
    exact ⟨forward, Nat.lt_of_le_of_ne (start ▸ apart) edge⟩
  rw [inFront]
  rcases whole.eq_nil_or_exists with rfl | ⟨others, rfl⟩
  · have nothing : (requireEdits count earlier).1 = [] := by
      refine List.eq_nil_iff_forall_not_mem.mpr fun edit member => ?_
      have := (stops edit member).2
      simp at this
    rw [nothing]
    exact .nil
  · have inside : ∀ edit ∈ (requireEdits count earlier).1,
        edit.1.start ≤ others.length ∧ edit.1.stop ≤ others.length := by
      intro edit member
      have := stops edit member
      simp at this
      omega
    have replaced := replace_append [Byte.newline] inside []
    rw [shiftEdits, List.map_nil, List.append_nil] at replaced
    rw [replaced]
    exact isLines_append_newline _

private theorem exists_layout (count : Nat) : ∃ below,
    (requireImports count script).1 =
      replace (script.take statement.span.start) (requireEdits count earlier).1 ++
        ((requireStatements (requireEdits count earlier).2 statement).1 ++
          (script.lineBehind statement.span.stop ++ below)) ∧
      (Byte.newline ∉ script.lineBehind statement.span.stop → below = []) := by
  have here : statement ∈ Import.all script := by simp [found]
  obtain ⟨rest, split, free, closed⟩ := exists_lineBehind script statement.span.stop
  let line := script.lineBehind statement.span.stop
  let laterEdits := (requireEdits
    (requireStatements (requireEdits count earlier).2 statement).2 later).1
  have length : (script.take statement.span.stop).length = statement.span.stop :=
    List.length_take_of_le (Import.isWhole_of_mem_all string here).1.inside
  have earlierStarts : ∀ edit ∈ (requireEdits count earlier).1,
      edit.1.start ≤ statement.span.start := fun edit member =>
    (of_mem_earlier string found member).1.le.trans (of_mem_earlier string found member).2
  have laterStarts : ∀ edit ∈ laterEdits,
      statement.span.stop + line.length ≤ edit.1.start ∧ edit.1.start < script.length :=
    fun edit member => of_mem_later string found member
  have wholeLength := congrArg List.length split
  simp only [List.length_append, length] at wholeLength
  refine ⟨replaceFrom script (statement.span.stop + line.length) laterEdits, ?_, fun absent => ?_⟩
  · have copied : script.slice ⟨statement.span.stop, statement.span.stop + line.length⟩ = line := by
      conv_lhs => rw [split, ← List.append_assoc]
      exact slice_append rest length rfl
    have behind := replaceFrom_of_le script (Nat.le_add_right statement.span.stop line.length)
      fun edit member => (laterStarts edit member).1
    rw [copied] at behind
    have replaced := replaceFrom_append_cons script 0 earlierStarts
      (requireStatements (requireEdits count earlier).2 statement).1 laterEdits
    rw [behind] at replaced
    rw [requireImports, found, requireEdits_append]
    exact replaced
  · obtain rfl := closed absent
    have nothing : laterEdits = [] := by
      refine List.eq_nil_iff_forall_not_mem.mpr fun edit member => ?_
      have starts := laterStarts edit member
      simp only [line, List.length_nil] at starts wholeLength
      omega
    rw [nothing, replaceFrom]
    exact List.drop_of_length_le (by simp only [line, List.length_nil] at wholeLength ⊢; omega)

end Layout

section Line

/-- The name that the call of an import is bound to, if it is bound to one. -/
def callTarget? (count : Nat) (statement : Import) : Option Text :=
  if statement.bindsNothing then none else some ((soleName? statement).getD (temporary count))

/-- A call that requires a path, bound to a name if there is one. -/
def callText (target? : Option Text) (path : Text) : Text :=
  target?.elim (requireCall path) (constant · (requireCall path))

/-- What stands behind the call of an import on its line, if `rest` stands behind the import on the
line of the import. -/
def behindCall (statement : Import) (rest : Text) : Text :=
  if statement.bindsNothing then Byte.semicolon :: rest
  else if (soleName? statement).isSome then rest else [Byte.newline]

private theorem exists_call {statement : Import} (value : statement.typeOnly = false) (count : Nat)
    (rest below : Text) : ∃ behind,
      (requireStatements count statement).1 ++ (rest ++ below) =
        callText (callTarget? count statement) statement.path ++ behindCall statement rest ++
          behind ∧
      (Byte.newline ∉ behindCall statement rest → behind = below) := by
  rw [requireStatements_eq value, linesOf, callTarget?, behindCall]
  cases bound : statement.bindsNothing with
  | true => exact ⟨below, by simp [join, ImportLine.text, callText], fun _ => rfl⟩
  | false =>
    cases soleName? statement with
    | some name => exact ⟨below, by simp [join, ImportLine.text, callText], fun _ => rfl⟩
    | none =>
      obtain ⟨target, others, taken⟩ := List.exists_cons_of_ne_nil (targets_ne_nil bound)
      refine ⟨join [Byte.newline] (((target :: others).map (ImportLine.reads · count)).map
        ImportLine.text) ++ (rest ++ below), ?_, fun absent => absurd (by simp) absent⟩
      simp [taken, join, ImportLine.text, callText]

variable {script : Text} (string : IsString script)
include string

private theorem inTarget_callTarget {statement : Import} (member : statement ∈ Import.all script)
    {count : Nat} {name : Text} (bound : callTarget? count statement = some name) :
    ∀ b ∈ name, inTarget b = true := by
  unfold callTarget? at bound
  split at bound
  · contradiction
  · obtain rfl := Option.some.inj bound
    cases sole : soleName? statement with
    | some name =>
      exact inTarget_of_name (isIdentifier_of_sole (Import.spelled_of_mem_all string member) sole)
    | none => exact inTarget_temporary count

private theorem newline_not_mem_callText {statement : Import}
    (member : statement ∈ Import.all script) (count : Nat) :
    Byte.newline ∉ callText (callTarget? count statement) statement.path := by
  have path := Import.open_path string member
  have call : Byte.newline ∉ requireCall statement.path := by
    rw [requireCall_of_not_mem fun inside => (path _ inside).1 rfl]
    simp only [List.mem_append, List.mem_singleton, not_or]
    exact ⟨⟨by decide, ⟨by decide, fun inside => (path _ inside).2 rfl⟩, by decide⟩, by decide⟩
  unfold callText
  cases shape : callTarget? count statement with
  | none => exact call
  | some name =>
    simp only [Option.elim, constant, List.mem_append, not_or]
    exact ⟨⟨⟨by decide, fun inside =>
      absurd (inTarget_callTarget string member shape _ inside) (by decide)⟩, by decide⟩, call⟩

end Line

section Shown

/-- Whether the mask of a script shows the word that an import begins with. -/
def ShowsImport (script : Text) (statement : Import) : Prop :=
  ∃ indent, Gap indent ∧ encode (indent ++ "import".toList) <+: script.slice statement.span ∧
    encode (indent ++ "import".toList) <+: script.mask.slice statement.span

private theorem getElem?_of_slice {text : Text} {span : Span} {offset : Nat} {b : UInt8}
    (reads : (text.slice span)[offset]? = some b) : text[span.start + offset]? = some b := by
  rw [slice, List.getElem?_drop, List.getElem?_take] at reads
  split at reads
  · exact reads
  · contradiction

private theorem after_gap {gap : List Char} (valid : Gap gap) {state : State}
    (free : state.claimed = false) (next : Option UInt8) :
    after state next (encode gap) = state := by
  induction gap with
  | nil => rfl
  | cons c gap ih =>
    obtain ⟨first, others⟩ := List.forall_mem_cons.mp valid
    have steps {b : UInt8} (blank : b = Byte.space ∨ b = 0x09) (next : Option UInt8) :
        step state b next = state := by
      rcases state with ⟨mode, claimed, braces⟩
      obtain rfl : claimed = false := free
      cases mode with
      | code =>
        rcases blank with rfl | rfl
        · exact @codeStep_plain braces Byte.space next (by decide) (by decide) (by decide)
            (by decide) (by decide) (by decide)
        · exact @codeStep_plain braces 0x09 next (by decide) (by decide) (by decide) (by decide)
            (by decide) (by decide)
      | quoted quote => rcases blank with rfl | rfl <;> cases quote <;> simp +decide [step]
      | lineComment | blockComment | template =>
        rcases blank with rfl | rfl <;> simp +decide [step]
    rcases first with rfl | rfl
    · exact (congrArg (after · next (encode gap)) (steps (.inl rfl) _)).trans (ih others)
    · exact (congrArg (after · next (encode gap)) (steps (.inr rfl) _)).trans (ih others)

private theorem claimed_of_isLines {before : Text} (whole : IsLines before) (next : Option UInt8) :
    (after start next before).claimed = false := by
  rcases whole.eq_nil_or_exists with rfl | ⟨front, rfl⟩
  · rfl
  · rw [after_append]
    generalize after start _ front = state
    rcases state with ⟨mode, _ | _, braces⟩
    · cases mode <;> simp +decide [after, step]
    · rfl

/-- An import whose word is shown stands in code. -/
theorem code_of_showsImport {script : Text} (string : IsString script) {statement : Import}
    (member : statement ∈ Import.all script) (shown : ShowsImport script statement) :
    ∃ braces, stateAt script statement.span.start = ⟨.code, false, braces⟩ := by
  obtain ⟨indent, valid, ⟨behind, spelled⟩, ⟨rest, visible⟩⟩ := shown
  obtain ⟨before, front, last, afterText, split, whole, -, span⟩ :=
    Import.exists_bytes string member
  have start : statement.span.start = before.length := by rw [span]
  have letter (others : Text) : (encode (indent ++ "import".toList) ++ others)[(encode
      indent).length]? = some 0x69 := by
    rw [encode_append, List.append_assoc, List.getElem?_append_right le_rfl, Nat.sub_self]
    rfl
  have reads := getElem?_of_slice (visible ▸ letter rest)
  obtain ⟨-, code, free⟩ := code_of_mask reads (by decide) (by decide) (by decide) (by decide)
  have unclaimed : (stateAt script statement.span.start).claimed = false := by
    have inFront : script.take statement.span.start = before := by
      rw [start, split]
      exact List.take_left
    rw [stateAt, inFront]
    exact claimed_of_isLines whole _
  have gap : script.slice ⟨statement.span.start, statement.span.start + (encode indent).length⟩ =
      encode indent := by
    have inside := congrArg List.length spelled
    rw [slice, List.length_drop, List.length_take, encode_append, List.length_append,
      List.length_append] at inside
    have cut : script.slice ⟨statement.span.start, statement.span.start + (encode indent).length⟩ =
        (script.slice statement.span).take (encode indent).length := by
      rw [slice, slice, List.drop_take, List.drop_take, List.take_take, Nat.add_sub_cancel_left,
        Nat.min_eq_left (by omega)]
    rw [cut, ← spelled, encode_append, List.append_assoc, List.take_left]
  have comes := after_slice script
    (Nat.le_add_right statement.span.start (encode indent).length)
  rw [gap, after_gap valid unclaimed] at comes
  rw [← comes] at code
  exact ⟨_, by rw [← code, ← unclaimed]⟩

end Shown

section Ending

/-- The characters of a call with a hidden path, behind its opening parenthesis. -/
private def hiddenPath (width : Nat) : List Char :=
  '\x27' :: List.replicate width ' ' ++ ['\x27', ')']

private theorem closing_of_hiddenPath {width : Nat} {behind : List Char} {call : Call}
    (same : call.inner ++ call.quote.character :: call.name ++ call.quote.character :: call.outer ++
      ')' :: call.closing.spelled = hiddenPath width ++ behind) :
    behind = call.closing.spelled := by
  obtain ⟨inner, quote, name, outer, closing, innerValid, nameValid, outerValid⟩ := call
  simp only [hiddenPath, List.append_assoc, List.cons_append, List.nil_append] at same
  obtain rfl : inner = [] := by
    cases inner with
    | nil => rfl
    | cons c inner =>
      obtain ⟨rfl, -⟩ := List.cons.inj same
      have blank := innerValid '\x27' List.mem_cons_self
      simp at blank
  obtain ⟨opened, same⟩ := List.cons.inj same
  obtain rfl : quote = .single := by
    cases quote with
    | single => rfl
    | double => exact absurd opened (by decide)
  have spaces : ∀ c ∈ List.replicate width ' ', c ≠ '\x27' := fun c member => by
    rw [List.eq_of_mem_replicate member]
    decide
  have unquoted : ∀ c ∈ name, c ≠ '\x27' := by
    rintro c member rfl
    exact nameValid.1 member
  obtain ⟨rfl, -, same⟩ := append_cons_inj_of_front (· ≠ '\x27')
    (show name ++ '\x27' :: (outer ++ ')' :: closing.spelled) =
      List.replicate width ' ' ++ '\x27' :: ')' :: behind from same)
    (by simp) (by simp) unquoted spaces
  cases outer with
  | nil => exact (List.cons.inj same).2.symm
  | cons c outer =>
    obtain ⟨rfl, -⟩ := List.cons.inj same
    have blank := outerValid ')' List.mem_cons_self
    simp at blank

private def callee : List Char := ['r', 'e', 'q', 'u', 'i', 'r', 'e']

private def hiddenCall (width : Nat) : List Char := callee ++ '(' :: hiddenPath width

private theorem spelled_eq (call : Call) : call.spelled = callee ++ '(' ::
    (call.inner ++ call.quote.character :: call.name ++ call.quote.character :: call.outer ++
      ')' :: call.closing.spelled) := by
  have opening : Call.opening = callee ++ ['('] := rfl
  rw [Call.spelled, opening]
  simp only [List.append_assoc, List.cons_append, List.nil_append]

private theorem exists_hiddenCall_concat (width : Nat) :
    ∃ others, hiddenCall width = others ++ [')'] := by
  refine ⟨callee ++ '(' :: ('\x27' :: List.replicate width ' ' ++ ['\x27']), ?_⟩
  simp only [hiddenCall, hiddenPath, List.append_assoc, List.cons_append, List.nil_append]

private theorem closing_of_overlap {front before more behind : List Char} {width : Nat}
    {call : Call} (free : '(' ∉ front) (nonempty : more ≠ [])
    (shape : front ++ hiddenCall width = before ++ more) (split : call.spelled = more ++ behind) :
    behind = call.closing.spelled := by
  have closes : ')' ∈ more := by
    obtain ⟨others, last⟩ := exists_hiddenCall_concat width
    obtain ⟨rest, c, rfl⟩ := (List.eq_nil_or_concat' more).resolve_left nonempty
    rw [last, ← List.append_assoc, ← List.append_assoc] at shape
    obtain ⟨-, same⟩ := List.append_inj' shape rfl
    rw [(List.cons.inj same).1]
    simp
  have word : '(' ∉ callee ∧ ')' ∉ callee := by decide
  rw [spelled_eq] at split
  rcases List.append_eq_append_iff.mp split with ⟨rest, rfl, others⟩ | ⟨rest, calleeEq, -⟩
  · cases rest with
    | nil => exact absurd (List.append_nil callee ▸ closes) word.2
    | cons c rest =>
      obtain ⟨rfl, called⟩ := List.cons.inj others
      have openFront : '(' ∉ front ++ callee := by simp [free, word.1]
      have freePath : '(' ∉ hiddenPath width := by simp [hiddenPath]
      rw [hiddenCall, ← List.append_assoc, ← List.append_assoc] at shape
      obtain ⟨-, -, rfl⟩ := (List.append_cons_inj_of_notMem openFront freePath).mp shape
      exact closing_of_hiddenPath called
  · exact absurd (calleeEq ▸ List.mem_append_left _ closes) word.2

/-- Whether characters behind a call make its line a require line: nothing else stands there, or
another call ends the line. -/
def EndsRequireLine (behind : List Char) : Prop :=
  (∃ closing : Closing, behind = closing.spelled) ∨
    ∃ (before : List Char) (call : Call), Pattern.isWord before.getLast? = false ∧
      behind = before ++ call.spelled

private theorem endsRequireLine_iff {front behind : List Char} (width : Nat) (free : '(' ∉ front)
    (edge : Pattern.isWord front.getLast? = false) :
    (∃ (before : List Char) (call : Call), Pattern.isWord before.getLast? = false ∧
      front ++ hiddenCall width ++ behind = before ++ call.spelled) ↔ EndsRequireLine behind := by
  obtain ⟨body, last⟩ := exists_hiddenCall_concat width
  have edgeBehind (others : List Char) :
      Pattern.isWord (front ++ hiddenCall width ++ others).getLast? =
        Pattern.isWord others.getLast? := by
    rw [List.getLast?_append]
    cases others.getLast? with
    | some c => rfl
    | none =>
      rw [Option.none_or, last, ← List.append_assoc, List.getLast?_concat]
      rfl
  constructor
  · rintro ⟨before, call, boundary, same⟩
    rcases List.append_eq_append_iff.mp same with ⟨more, rfl, split⟩ | ⟨more, shape, split⟩
    · exact .inr ⟨more, call, (edgeBehind more).symm.trans boundary, split⟩
    · by_cases nothing : more = []
      · exact .inr ⟨[], call, rfl, by rw [split, nothing]; rfl⟩
      · exact .inl ⟨call.closing, closing_of_overlap free nothing shape split⟩
  · rintro (⟨closing, rfl⟩ | ⟨before, call, boundary, rfl⟩)
    · let call : Call :=
        { inner := [], quote := .single, name := List.replicate width ' ', outer := [], closing
          innerValid := fun c member => absurd member List.not_mem_nil
          nameValid := by simp [Quote.character]
          outerValid := fun c member => absurd member List.not_mem_nil }
      refine ⟨front, call, edge, ?_⟩
      rw [spelled_eq, hiddenCall, hiddenPath]
      simp only [call, Quote.character, List.append_assoc, List.cons_append, List.nil_append]
    · exact ⟨_, call, (edgeBehind before).trans boundary, (List.append_assoc ..).symm⟩

private theorem exists_maskedCall {target? : Option Text}
    (target : ∀ name ∈ target?, ∀ b ∈ name, inTarget b = true) (width : Nat) :
    ∃ front, '(' ∉ front ∧ Pattern.isWord front.getLast? = false ∧
      callText target? (List.replicate width Byte.space) = encode (front ++ hiddenCall width) := by
  have call : requireCall (List.replicate width Byte.space) = encode (hiddenCall width) := by
    have spaces : Byte.singleQuote ∉ List.replicate width Byte.space := fun member =>
      absurd (List.eq_of_mem_replicate member) (by decide)
    have shape : hiddenCall width =
        (callee ++ ['(', '\x27']) ++ (List.replicate width ' ' ++ ['\x27', ')']) := by
      simp only [hiddenCall, hiddenPath, List.append_assoc, List.cons_append, List.nil_append]
    have opening : encode (callee ++ ['(', '\x27']) =
        ofString "require(" ++ [Byte.singleQuote] := rfl
    have closing : encode ['\x27', ')'] = Byte.singleQuote :: ofString ")" := rfl
    rw [requireCall_of_not_mem spaces, shape, encode_append (callee ++ ['(', '\x27']),
      encode_append (List.replicate width ' '), encode_spaces, opening, closing]
    simp only [List.append_assoc, List.cons_append, List.nil_append]
  cases target? with
  | none => exact ⟨[], by simp, rfl, call⟩
  | some name =>
    have inside := target name rfl
    have low : ∀ b ∈ name, b.toNat < 0x80 := fun b member => low_of_inTarget (inside b member)
    have free : '(' ∉ ascii name := by
      intro member
      obtain ⟨b, found, code⟩ := List.mem_map.mp member
      have parenthesis : b = 0x28 := by
        have := congrArg Char.toNat code
        rw [toNat_ofUInt8] at this
        exact UInt8.toNat_inj.mp this
      exact absurd (inside b found) (parenthesis ▸ by decide)
    have opening : encode ['c', 'o', 'n', 's', 't', ' '] = ofString "const " := rfl
    have equals : encode [' ', '=', ' '] = ofString " = " := rfl
    refine ⟨['c', 'o', 'n', 's', 't', ' '] ++ ascii name ++ [' ', '=', ' '], ?_, ?_, ?_⟩
    · simp [free]
    · rw [List.getLast?_append]
      rfl
    · rw [callText, Option.elim, constant, call, encode_append, encode_append, encode_append,
        encode_ascii low, opening, equals]

end Ending

section Main

/-- What the mask would show behind an import on its line if the line went on in the code in which
the import begins. -/
def shownBehind (script : Text) (statement : Import) : Text :=
  scan (stateAt script statement.span.start) none (script.lineBehind statement.span.stop)

/-- Whether code that is shown behind a call is apart from it: in front of it a semicolon stands. -/
def Separated (shown : Text) : Prop := ∀ b ∈ shown.trimStart.head?, b = Byte.semicolon

instance (shown : Text) : Decidable (Separated shown) :=
  match same : shown.trimStart.head? with
  | none => isTrue (by simp [Separated, same])
  | some b => decidable_of_iff (b = Byte.semicolon) (by simp [Separated, same])

variable {script : String} {count : Nat} {earlier later : List Import} {statement : Import}

private theorem separated_behindCall {shown : Text}
    (string : IsString (behindCall statement shown)) :
    Separated (behindCall statement shown) ↔ soleName? statement = none ∨ Separated shown := by
  unfold behindCall at string ⊢
  cases bound : statement.bindsNothing with
  | true =>
    have noSole : soleName? statement = none := by
      simp only [Import.bindsNothing, Bool.and_eq_true, Option.isNone_iff_eq_none,
        List.isEmpty_iff] at bound
      simp [soleName?, bound]
    rw [bound, if_pos rfl] at string
    obtain ⟨characters, shape⟩ := string
    obtain ⟨others, rfl, -⟩ := @encode_eq_encode_append _ [';'] _ shape.symm
    have apart : Separated (encode (';' :: others)) := by
      have stays : (';' :: others).dropWhile (CharacterClass.blank ·.toNat) = ';' :: others :=
        List.dropWhile_cons_of_neg (by decide)
      rw [Separated, trimStart_encode, stays]
      rintro b ⟨⟩
      rfl
    simp only [if_true, noSole, true_or, iff_true]
    exact shape ▸ apart
  | false =>
    cases soleName? statement with
    | some name => simp
    | none =>
      have lineEnd : Separated [Byte.newline] := by decide
      simpa using lineEnd

private theorem callText_ne_nil (target? : Option Text) (path : Text) :
    callText target? path ≠ [] := by
  have opening : ofString "require(" ≠ [] := by decide
  cases target? with
  | none => simp [callText, requireCall, opening]
  | some name => simp [callText, constant, requireCall, opening]

private theorem newline_behindCall (statement : Import) {rest : Text}
    (free : Byte.newline ∉ rest.dropLast) :
    Byte.newline ∉ (behindCall statement rest).dropLast ∧
      (Byte.newline ∈ rest → Byte.newline ∈ behindCall statement rest) := by
  unfold behindCall
  split
  · refine ⟨?_, List.mem_cons_of_mem _⟩
    cases rest with
    | nil => exact List.not_mem_nil
    | cons b rest =>
      rw [List.dropLast_cons_cons, List.mem_cons, not_or]
      exact ⟨by decide, free⟩
  split
  · exact ⟨free, id⟩
  · exact ⟨List.not_mem_nil, fun _ => List.mem_singleton_self _⟩

private theorem exists_callLine
    (found : Import.all (ofString script) = earlier ++ statement :: later)
    (value : statement.typeOnly = false) (count : Nat) : ∃ above line below,
      ScriptLine.all (requireImports count (ofString script)).1 = above ++ line :: below ∧
      above.flatMap ScriptLine.text =
        replace ((ofString script).take statement.span.start) (requireEdits count earlier).1 ∧
      line.state = after start none
        (replace ((ofString script).take statement.span.start) (requireEdits count earlier).1) ∧
      line.text = callText (callTarget? (requireEdits count earlier).2 statement) statement.path ++
        behindCall statement ((ofString script).lineBehind statement.span.stop) := by
  have string := isString_ofString script
  have here : statement ∈ Import.all (ofString script) := by simp [found]
  have whole := isLines_front string found count
  obtain ⟨below, layout, ends⟩ := exists_layout string found count
  obtain ⟨_, -, free, -⟩ := exists_lineBehind (ofString script) statement.span.stop
  let rest := (ofString script).lineBehind statement.span.stop
  obtain ⟨behind, split, last⟩ := exists_call value (requireEdits count earlier).2 rest below
  have openCall := newline_not_mem_callText string here (requireEdits count earlier).2
  have someCall := callText_ne_nil (callTarget? (requireEdits count earlier).2 statement)
    statement.path
  generalize callText (callTarget? (requireEdits count earlier).2 statement) statement.path = call
    at split openCall someCall ⊢
  have one : IsLine Byte.newline (call ++ behindCall statement rest) := by
    refine ⟨by simp [someCall], fun member => ?_⟩
    by_cases nothing : behindCall statement rest = []
    · rw [nothing, List.append_nil] at member
      exact openCall (List.dropLast_subset _ member)
    · rw [List.dropLast_append_of_ne_nil nothing, List.mem_append] at member
      exact (newline_behindCall statement free).1 (member.resolve_left openCall)
  have closed : Byte.newline ∉ call ++ behindCall statement rest → behind = [] := by
    intro absent
    rw [List.mem_append, not_or] at absent
    rw [last absent.2]
    exact ends fun member => absent.2 ((newline_behindCall statement free).2 member)
  let line : ScriptLine := ⟨after start none
    (replace ((ofString script).take statement.span.start) (requireEdits count earlier).1),
      call ++ behindCall statement rest⟩
  refine ⟨ScriptLine.all _, line, ScriptLine.read line.ending (lines behind), ?_,
    ScriptLine.flatMap_text_all _, rfl, rfl⟩
  have cut : lines (call ++ behindCall statement rest ++ behind) =
      (call ++ behindCall statement rest) :: lines behind := linesBy_append_line one closed
  rw [layout, split, ScriptLine.all, ScriptLine.read_append whole, cut]
  rfl

private theorem after_front (found : Import.all (ofString script) = earlier ++ statement :: later)
    (alike : ∀ edit ∈ (requireEdits count earlier).1, LeavesAlike (ofString script) edit) :
    after start none
        (replace ((ofString script).take statement.span.start) (requireEdits count earlier).1) =
      stateAt (ofString script) statement.span.start := by
  have string := isString_ofString script
  have rising := rising_requireEdits count string
  rw [found, requireEdits_append] at rising
  have inside : ∀ edit ∈ (requireEdits count earlier).1, 0 ≤ edit.1.start ∧
      edit.1.start ≤ edit.1.stop ∧ edit.1.stop ≤ statement.span.start := by
    intro edit member
    obtain ⟨forward, apart⟩ := of_mem_earlier string found member
    exact ⟨Nat.zero_le _, forward.le, apart⟩
  have unnoticed : ∀ edit ∈ (requireEdits count earlier).1,
      Unnoticed (ofString script) edit := by
    intro edit member
    obtain ⟨other, known, count, rfl⟩ := exists_of_mem_requireEdits member
    have there : other ∈ Import.all (ofString script) := by simp [found, known]
    exact unnoticed_of_mem_all string there count
  have comes := after_replaceFrom (List.pairwise_append.mp rising).1 inside (Nat.zero_le _)
    unnoticed alike
  rw [← comes, ← after_of_isLines (isLines_front string found count) start]
  rfl

private theorem settlesIn_callText {braces : List Nat}
    (here : statement ∈ Import.all (ofString script)) (closes : escapesNext statement.path = false)
    (count : Nat) : SettlesIn braces (callText (callTarget? count statement) statement.path)
      (callText (callTarget? count statement)
        (List.replicate statement.path.length Byte.space)) := by
  have string := isString_ofString script
  have call := @settlesIn_requireCall braces _ ⟨Import.open_path string here, closes⟩
  unfold callTarget?
  split
  · exact call
  · cases sole : soleName? statement with
    | some name =>
      exact settlesIn_constant (settlesIn_plain (plain_of_name (isIdentifier_of_sole
        (Import.spelled_of_mem_all string here) sole))) call
    | none => exact settlesIn_constant (settlesIn_plain (plain_temporary count)) call

private theorem scan_behindCall (braces : List Nat) (statement : Import) (rest : Text) :
    scan ⟨.code, false, braces⟩ none (behindCall statement rest) =
      behindCall statement (scan ⟨.code, false, braces⟩ none rest) := by
  have semicolon : SettlesIn braces [Byte.semicolon] [Byte.semicolon] :=
    settlesIn_plain (forall_mem_of_all (by decide))
  have lineEnd : SettlesIn braces [Byte.newline] [Byte.newline] :=
    settlesIn_plain (forall_mem_of_all (by decide))
  unfold behindCall
  split
  · obtain ⟨scanned, ended⟩ := semicolon rest.head?
    rw [← List.singleton_append, scan_append, Option.or_none, scanned, ended]
    rfl
  split
  · rfl
  · exact (lineEnd none).1

/-- The generated call of an import in code stands on one line of the rewritten script, behind what
the imports in front have become. -/
theorem call_line (found : Import.all (ofString script) = earlier ++ statement :: later)
    (value : statement.typeOnly = false) (shown : ShowsImport (ofString script) statement)
    (closes : escapesNext statement.path = false)
    (alike : ∀ edit ∈ (requireEdits count earlier).1, LeavesAlike (ofString script) edit) :
    ∃ above line below,
      ScriptLine.all (requireImports count (ofString script)).1 = above ++ line :: below ∧
      above.flatMap ScriptLine.text =
        replace ((ofString script).take statement.span.start) (requireEdits count earlier).1 ∧
      line.text = callText (callTarget? (requireEdits count earlier).2 statement) statement.path ++
        behindCall statement ((ofString script).lineBehind statement.span.stop) ∧
      line.mask = callText (callTarget? (requireEdits count earlier).2 statement)
          (List.replicate statement.path.length Byte.space) ++
        behindCall statement (shownBehind (ofString script) statement) ∧
      (Separated (behindCall statement (shownBehind (ofString script) statement)) ↔
        soleName? statement = none ∨ Separated (shownBehind (ofString script) statement)) ∧
      (line ∈ RequireLine.keptLines (requireImports count (ofString script)).1 ↔
        ¬∃ behind, behindCall statement (shownBehind (ofString script) statement) = encode behind ∧
          EndsRequireLine behind) := by
  have string := isString_ofString script
  have here : statement ∈ Import.all (ofString script) := by simp [found]
  obtain ⟨braces, code⟩ := code_of_showsImport string here shown
  obtain ⟨above, line, below, all, front, state, text⟩ := exists_callLine found value count
  rw [after_front found alike, code] at state
  have mask : line.mask = callText (callTarget? (requireEdits count earlier).2 statement)
      (List.replicate statement.path.length Byte.space) ++
        behindCall statement (shownBehind (ofString script) statement) := by
    obtain ⟨scanned, ended⟩ := @settlesIn_callText script statement braces here closes
      (requireEdits count earlier).2 ((behindCall statement
        ((ofString script).lineBehind statement.span.stop)).head?)
    rw [ScriptLine.mask, state, text, scan_append, Option.or_none, scanned, ended,
      scan_behindCall, shownBehind, code]
  obtain ⟨rewritten, spelled⟩ := (isString_requireImports count string).exists_string
  have member : line ∈ ScriptLine.all (requireImports count (ofString script)).1 := by simp [all]
  have masked : line.mask ∈ (ofString rewritten).mask.lines := by
    rw [← spelled, ← ScriptLine.map_mask_all]
    exact List.mem_map_of_mem member
  obtain ⟨call, free, edge, called⟩ := exists_maskedCall
    (fun name => @inTarget_callTarget _ string statement here (requireEdits count earlier).2 name)
    statement.path.length
  rw [called] at mask
  obtain ⟨characters, rewrittenMask⟩ := (isString_ofString rewritten).aligned.maskIsString
  obtain ⟨behind, spelledBehind⟩ : ∃ behind,
      behindCall statement (shownBehind (ofString script) statement) = encode behind := by
    rw [rewrittenMask, lines_encode, List.mem_map] at masked
    obtain ⟨characters, -, same⟩ := masked
    obtain ⟨behind, -, same⟩ := encode_eq_encode_append (same.trans mask)
    exact ⟨behind, same.symm⟩
  refine ⟨above, line, below, all, front, text, called ▸ mask, ?separated, ?kept⟩
  case separated => exact separated_behindCall ⟨behind, spelledBehind⟩
  case kept =>
    rw [spelledBehind, ← encode_append] at mask
    rw [keptLines, List.mem_filter, and_iff_right member, Bool.not_eq_true', ← Bool.not_eq_true,
      isRequireLine_iff masked, not_iff_not, mask, spelledBehind]
    constructor
    · rintro ⟨before, last, same, boundary⟩
      exact ⟨behind, rfl, (endsRequireLine_iff _ free edge).mp
        ⟨before, last, boundary, encode_injective same⟩⟩
    · rintro ⟨others, same, ends⟩
      obtain rfl := encode_injective same
      obtain ⟨before, last, boundary, same⟩ := (endsRequireLine_iff _ free edge).mpr ends
      exact ⟨before, last, congrArg encode same, boundary⟩

/-- The import of a name under a comment, behind one that goes through a temporary. -/
private def commentedImport : String :=
  "import \x7b x \x7d from 'a'\nimport b from 'c' ; // d\nb(x)"

/-- The line of the second call here goes on with a comment, and it is stripped. -/
theorem call_line_commented : ∃ line ∈
    ScriptLine.all (requireImports 0 (ofString commentedImport)).1,
      line.text = ofString "const b = require('c') // d\n" ∧
        line ∉ RequireLine.keptLines (requireImports 0 (ofString commentedImport)).1 := by
  have found : Import.all (ofString commentedImport) =
      [⟨⟨0, 21⟩, none, none, [("x", "x")], "a", false⟩] ++
        ⟨⟨22, 41⟩, some "b", none, [], "c", false⟩ :: [] := by decide +kernel
  have shown : ShowsImport (ofString commentedImport)
      ⟨⟨22, 41⟩, some "b", none, [], "c", false⟩ :=
    ⟨[], by simp [Gap], by decide +kernel, by decide +kernel⟩
  have code : ∀ statement ∈ [⟨⟨0, 21⟩, none, none, [("x", "x")], "a", false⟩],
      statement ∈ Import.all (ofString commentedImport) ∧
        InCode (ofString commentedImport) statement := by
    rw [List.forall_mem_singleton, found]
    exact ⟨List.mem_cons_self, by decide +kernel⟩
  have alike := leavesAlike_requireEdits (isString_ofString commentedImport) code 0
  obtain ⟨above, line, below, all, -, text, -, -, kept⟩ := call_line found rfl shown rfl alike
  refine ⟨line, by simp [all], text.trans (by decide +kernel), ?_⟩
  let closing : Closing :=
    { gap := List.replicate 5 ' ', terminator := none, carriageReturn := false, lineEnd := true
      gapValid := by simp [Gap]
      terminatorValid := by simp }
  rw [kept, not_not]
  exact ⟨closing.spelled, by decide +kernel, .inl ⟨closing, rfl⟩⟩

/-- Whether each call that is generated for an import in code is apart from the code behind it, and
its line is stripped. -/
def CallsApart (script : Text) : Prop :=
  ∀ earlier statement later, Import.all script = earlier ++ statement :: later →
    statement.typeOnly = false → ShowsImport script statement →
      ∀ above line below, ScriptLine.all (requireImports 0 script).1 = above ++ line :: below →
        above.flatMap ScriptLine.text =
            replace (script.take statement.span.start) (requireEdits 0 earlier).1 →
          Separated (line.mask.drop
              (callText (callTarget? (requireEdits 0 earlier).2 statement) statement.path).length) ∧
            line ∉ RequireLine.keptLines (requireImports 0 script).1

/-- Without the semicolon that the import took, a call is joined with the code behind it. -/
theorem call_joined : ¬∀ script : String, CallsApart (ofString script) := by
  intro apart
  obtain ⟨separated, -⟩ := apart "import a from 'b'; foo()" []
    ⟨⟨0, 18⟩, some "a", none, [], "b", false⟩ [] (by decide +kernel) rfl
    ⟨[], by simp [Gap], by decide +kernel, by decide +kernel⟩ []
    ⟨start, "const a = require('b') foo()"⟩ [] (by decide +kernel) rfl
  exact absurd separated (by decide +kernel)

end Main

end ComponentScript

end BareComponent
