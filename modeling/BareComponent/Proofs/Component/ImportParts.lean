import BareComponent.Proofs.Component.Characters
import BareComponent.Proofs.Mask.Replaced

/-! # Imports in code

An import is one word behind its indent, whatever stands up to its path, and the path in quotes.
What is generated for it settles in the code that it stands in, unless a backslash at the end of its
path escapes the quote; so behind an import that begins and ends in the same code the scanner is
where it was in the script. Neither an import nor what is generated for it can be seen from beside
it.
-/

namespace BareComponent

open Text Pattern Cursor Scanner RequireLine

/-- How an import is spelled. The quotes around its path need not be the same. -/
structure ImportParts where
  indent : List Char
  /-- What stands between the word `import` and the path. -/
  words : List Char
  opening : Quote
  path : List Char
  closing : Quote
  /-- The blanks behind the path, and a semicolon. -/
  ending : List Char
  indentValid : Gap indent
  pathValid : ∀ c ∈ path, c ∉ ['\x27', '\x22', '\n']
  endingValid : ∀ c ∈ ending, c ∈ [' ', '\t', ';']

namespace ImportParts

/-- The characters through the opening quote of the path. -/
def front (parts : ImportParts) : List Char :=
  parts.indent ++ ("import".toList ++ (parts.words ++ [parts.opening.character]))

def spelled (parts : ImportParts) : List Char :=
  parts.front ++ (parts.path ++ parts.closing.character :: parts.ending)

/-- An import does not end with a line end. -/
theorem exists_spelled_eq (parts : ImportParts) :
    ∃ front last, parts.spelled = front ++ [last] ∧ last ≠ '\n' := by
  have nonempty : parts.spelled ≠ [] := by simp [spelled]
  refine ⟨_, _, (List.dropLast_append_getLast nonempty).symm, ?_⟩
  have last : parts.spelled.getLast nonempty ∈ parts.closing.character :: parts.ending := by
    have shape : parts.spelled =
        (parts.front ++ parts.path) ++ (parts.closing.character :: parts.ending) := by
      simp [spelled]
    simp only [shape]
    rw [List.getLast_append_of_ne_nil _ (List.cons_ne_nil _ _)]
    exact List.getLast_mem _
  rcases List.mem_cons.mp last with closing | ending
  · rw [closing]
    cases parts.closing <;> decide
  · have listed := parts.endingValid _ ending
    intro lineEnd
    rw [lineEnd] at listed
    exact absurd listed (by decide)

end ImportParts

section Parts

private theorem exists_of_quote {c : Char} (quotes : CharacterClass.oneOf "'\"" c.toNat = true) :
    ∃ quote : Quote, quote.character = c := by
  have listed : c ∈ ['\x27', '\x22'] :=
    (CharacterClass.oneOf_encode (forall_mem_of_all (by decide)) c).mp quotes
  rcases List.mem_pair.mp listed with rfl | rfl
  · exact ⟨.single, rfl⟩
  · exact ⟨.double, rfl⟩

private theorem mem_of_gap {c : Char} (blank : CharacterClass.oneOf " \t" c.toNat = true) :
    c = ' ' ∨ c = '\t' :=
  List.mem_pair.mp ((CharacterClass.oneOf_encode (forall_mem_of_all (by decide)) c).mp blank)

private theorem exists_of_mem {before after : List Char} {value : Bool × Option Span × Span}
    {next : Cursor} (member : (value, next) ∈ Import.pattern (between before after)) :
    ∃ (parts : ImportParts) (rest : List Char), after = parts.spelled ++ rest ∧
      (∀ c ∈ before.getLast?, c = '\n') ∧ next = between (before ++ parts.spelled) rest ∧
      value.2.2 = ⟨(encode (before ++ parts.front)).length,
        (encode (before ++ parts.front ++ parts.path)).length⟩ := by
  obtain ⟨_, _, starts, others⟩ := mem_bind.mp member
  obtain ⟨line, rfl⟩ := mem_lineStart.mp starts
  obtain ⟨_, _, indented, others⟩ := mem_bind.mp others
  obtain ⟨indent, _, rfl, indentValid, -, rfl⟩ := mem_run.mp indented
  obtain ⟨_, _, word, others⟩ := mem_bind.mp others
  obtain ⟨_, rfl, rfl⟩ := mem_literal.mp (word : _ ∈ Pattern.literal (encode "import".toList) _)
  obtain ⟨_, _, spaced, others⟩ := mem_bind.mp others
  obtain ⟨gap, _, rfl, -, -, rfl⟩ := mem_many1.mp spaced
  obtain ⟨_, _, typed, others⟩ := mem_bind.mp others
  obtain ⟨-, mark, _, rfl, rfl⟩ := Import.steps_mark.optional _ _ rfl _ _ typed
  obtain ⟨_, _, bound, others⟩ := mem_bind.mp others
  obtain ⟨-, bindings, _, rfl, rfl⟩ := Import.steps_clause.optional _ _ rfl _ _ bound
  obtain ⟨_, _, opened, others⟩ := mem_bind.mp others
  obtain ⟨_, _, rfl, quotes, rfl⟩ := mem_character.mp opened
  obtain ⟨opening, rfl⟩ := exists_of_quote quotes
  obtain ⟨place, _, read, others⟩ := mem_bind.mp others
  obtain ⟨content, rfl⟩ := mem_spanned.mp read
  obtain ⟨path, _, rfl, -, pathValid, -, rfl⟩ := mem_run1.mp content
  obtain ⟨_, _, closed, others⟩ := mem_bind.mp others
  obtain ⟨_, _, rfl, quotes, rfl⟩ := mem_character.mp closed
  obtain ⟨closing, rfl⟩ := exists_of_quote quotes
  obtain ⟨_, _, padded, others⟩ := mem_bind.mp others
  obtain ⟨space, _, rfl, spaceValid, -, rfl⟩ := mem_run.mp padded
  obtain ⟨semicolon, _, ended, last⟩ := mem_bind.mp others
  have terminator : (";" : Text) = encode [';'] := rfl
  rw [terminator] at ended
  obtain ⟨taken, rest, rfl, rfl⟩ := mem_optional_literal.mp ⟨semicolon, ended⟩
  obtain ⟨rfl, rfl⟩ := mem_pure.mp last
  let parts : ImportParts :=
    { indent, words := gap ++ (mark ++ bindings), opening, path, closing
      ending := space ++ if taken then [';'] else []
      indentValid := fun c member => mem_of_gap (indentValid c member)
      pathValid := fun c member =>
        CharacterClass.not_mem_of_noneOf ['\x27', '\x22', '\n'] rfl (forall_mem_of_all (by decide))
          (pathValid c member)
      endingValid := by
        refine List.forall_mem_append.mpr ⟨fun c member => ?_, ?_⟩
        · rcases mem_of_gap (spaceValid c member) with rfl | rfl <;> simp
        · cases taken <;> simp }
  refine ⟨parts, rest, ?_, line, ?_, ?_⟩
  · simp [parts, ImportParts.spelled, ImportParts.front]
  · simp [parts, ImportParts.spelled, ImportParts.front]
  · simp [parts, ImportParts.front]

end Parts

/-- Each import is spelled in its place, at the beginning of a line. -/
theorem Import.exists_parts {characters : List Char} {statement : Import}
    (member : statement ∈ Import.all (encode characters)) :
    ∃ (parts : ImportParts) (before after : List Char),
      characters = before ++ (parts.spelled ++ after) ∧ (∀ c ∈ before.getLast?, c = '\n') ∧
      statement.span = ⟨(encode before).length, (encode (before ++ parts.spelled)).length⟩ ∧
      statement.path = encode parts.path := by
  obtain ⟨found, inside, rfl⟩ := List.mem_map.mp member
  obtain ⟨before, after, rfl, here⟩ := exists_of_mem_search inside
  obtain ⟨next, matched, span, -⟩ := exists_of_matchAt? here
  obtain ⟨parts, rest, rfl, line, rfl, place⟩ := exists_of_mem matched
  refine ⟨parts, before, rest, rfl, line, ?_, ?_⟩
  · rw [span, position_between, position_between]
  · have shape : encode (before ++ (parts.spelled ++ rest)) = encode (before ++ parts.front) ++
        encode parts.path ++ encode (parts.closing.character :: parts.ending ++ rest) := by
      simp [ImportParts.spelled]
    change slice _ found.value.2.2 = _
    rw [place, shape]
    exact slice_append _ rfl (by rw [encode_append _ parts.path, List.length_append])

/-- An import takes the place of some bytes at the beginning of a line, and it does not end with a
line end. -/
theorem Import.exists_bytes {script : Text} (string : IsString script) {statement : Import}
    (member : statement ∈ Import.all script) : ∃ before front last after,
      script = before ++ (front ++ [last] ++ after) ∧ IsLines before ∧ last ≠ Byte.newline ∧
      statement.span = ⟨before.length, (before ++ (front ++ [last])).length⟩ := by
  obtain ⟨characters, rfl⟩ := string
  obtain ⟨parts, before, after, rfl, line, span, -⟩ := Import.exists_parts member
  obtain ⟨front, c, spelled, noLine⟩ := parts.exists_spelled_eq
  obtain ⟨bytes, last, shape⟩ : ∃ bytes last, String.utf8EncodeChar c = bytes ++ [last] :=
    (List.eq_nil_or_concat' _).resolve_left String.utf8EncodeChar_ne_nil
  have split : encode parts.spelled = (encode front ++ bytes) ++ [last] := by
    rw [spelled, encode_append, encode_cons, shape, encode_nil, List.append_nil, List.append_assoc]
  refine ⟨encode before, encode front ++ bytes, last, encode after, ?_, isLines_encode line, ?_, ?_⟩
  · rw [encode_append, encode_append, split]
  · rintro rfl
    have member : Byte.newline ∈ String.utf8EncodeChar c := by
      rw [shape]
      exact List.mem_append_right _ List.mem_cons_self
    exact noLine (encodeChar_injective ((encodeChar_eq_singleton member (by decide)).1.trans rfl))
  · rw [span, encode_append, split]

/-- The path of an import stands on one line and has no quotes in it. -/
theorem Import.open_path {script : Text} (string : IsString script) {statement : Import}
    (member : statement ∈ Import.all script) :
    ∀ b ∈ statement.path, b ≠ Byte.singleQuote ∧ b ≠ Byte.newline := by
  obtain ⟨characters, rfl⟩ := string
  obtain ⟨parts, before, after, -, -, -, path⟩ := Import.exists_parts member
  have outside {c : Char} {b : UInt8} (spelled : String.utf8EncodeChar c = [b])
      (low : b.toNat < 0x80) (listed : c ∈ ['\x27', '\x22', '\n']) : b ∉ encode parts.path :=
    fun inside => parts.pathValid c ((mem_encode_iff spelled low).mp inside) listed
  rw [path]
  refine fun b inside => ⟨?_, ?_⟩
  · rintro rfl
    exact @outside '\x27' Byte.singleQuote rfl (by decide) (by simp) inside
  · rintro rfl
    exact @outside '\n' Byte.newline rfl (by decide) (by simp) inside

namespace ComponentScript

section Seams

private theorem blind_of_isDigit {b : UInt8} (digit : Byte.isDigit b = true) : Blind b := by
  refine ⟨?_, ?_, ?_⟩
  all_goals
    rintro rfl
    exact absurd digit (by decide)

private theorem exists_text_concat (line : ImportLine) :
    ∃ front b, line.text = front ++ [b] ∧ Blind b := by
  have parenthesis : ofString ")" = [0x29] := rfl
  cases line with
  | binds name path =>
    rw [ImportLine.text, constant, requireCall, parenthesis]
    exact ⟨_, 0x29, (List.append_assoc ..).symm, by decide⟩
  | runs path => exact ⟨requireCall path, Byte.semicolon, rfl, by decide⟩
  | reads target count =>
    obtain ⟨digits, last, shape⟩ : ∃ digits last, ofNat count = digits ++ [last] :=
      (List.eq_nil_or_concat' _).resolve_left (ofNat_ne_nil count)
    refine ⟨constant target (Declaration.temporaryStem ++ digits), last, ?_, ?_⟩
    · simp [ImportLine.text, constant, temporary, shape]
    · exact blind_of_isDigit (@isDigit_of_mem_ofNat count last (by simp [shape]))

private theorem getLast?_join {lines : List ImportLine} {b : UInt8}
    (last : b ∈ (join [Byte.newline] (lines.map ImportLine.text)).getLast?) : Blind b := by
  rcases List.eq_nil_or_concat' lines with rfl | ⟨front, line, rfl⟩
  · simp [join] at last
  · obtain ⟨text, c, shape, blind⟩ := exists_text_concat line
    obtain ⟨others, joined⟩ : ∃ others,
        join [Byte.newline] ((front ++ [line]).map ImportLine.text) = others ++ [c] := by
      rw [List.map_append]
      by_cases nothing : front.map ImportLine.text = []
      · exact ⟨text, by simp [nothing, join, shape]⟩
      · rw [join_append nothing (by simp)]
        exact ⟨_, by rw [List.map_singleton, join, shape, ← List.append_assoc]⟩
    rw [joined, List.getLast?_concat] at last
    exact Option.some.inj last ▸ blind

private theorem blind_requireStatements {count : Nat} {statement : Import} :
    ∀ b ∈ (requireStatements count statement).1.getLast?, Blind b := by
  intro b last
  cases types : statement.typeOnly with
  | true => simp [requireStatements, types] at last
  | false =>
    rw [requireStatements_eq types] at last
    exact getLast?_join last

variable {script : Text} (string : IsString script)
include string

/-- Nothing beside an import tells whether it is replaced. -/
theorem unnoticed_of_mem_all {statement : Import} (member : statement ∈ Import.all script)
    (count : Nat) : Unnoticed script (statement.span, (requireStatements count statement).1) where
  begins := by
    obtain ⟨before, front, last, after, split, whole, -, span⟩ := Import.exists_bytes string member
    have inFront : script.take statement.span.start = before := by
      rw [span, split]
      exact List.take_left
    change ∀ b ∈ (script.take statement.span.start).getLast?, Blind b
    rw [inFront]
    rcases whole.eq_nil_or_exists with rfl | ⟨others, rfl⟩
    · simp
    · rw [List.getLast?_concat]
      rintro b ⟨⟩
      decide
  ends := blind_requireStatements

end Seams

section InCode

/-- Whether an import begins and ends in the same code, and the quote behind its path is not
escaped. -/
def InCode (script : Text) (statement : Import) : Prop :=
  (stateAt script statement.span.start).mode = .code ∧
    (stateAt script statement.span.start).claimed = false ∧
    stateAt script statement.span.stop = stateAt script statement.span.start ∧
    escapesNext statement.path = false

instance (script : Text) (statement : Import) : Decidable (InCode script statement) :=
  inferInstanceAs (Decidable (_ ∧ _ ∧ _ ∧ _))

variable {braces : List Nat}

private theorem plain_of_continues {b : UInt8} (continues : Byte.continuesIdentifier b = true) :
    Plain b := by
  simp only [Plain, List.mem_cons, List.not_mem_nil, or_false]
  rintro (rfl | rfl | rfl | rfl | rfl | rfl) <;> exact absurd continues (by decide)

theorem plain_of_name {name : Text} (named : name.isIdentifier = true) :
    ∀ b ∈ name, Plain b := fun b member =>
  plain_of_continues (continuesIdentifier_of_name named b member)

theorem plain_temporary (count : Nat) : ∀ b ∈ temporary count, Plain b := by
  have stem : ∀ b ∈ Declaration.temporaryStem, Plain b := forall_mem_of_all (by decide)
  refine List.forall_mem_append.mpr ⟨stem, fun b member => plain_of_continues ?_⟩
  simp [Byte.continuesIdentifier, isDigit_of_mem_ofNat member]

/-- Whether a path can stand in single quotes, where it is hidden. -/
structure QuotedPath (path : Text) : Prop where
  inside : ∀ b ∈ path, b ≠ Byte.singleQuote ∧ b ≠ Byte.newline
  closes : escapesNext path = false

/-- A call shows all but its path. -/
theorem settlesIn_requireCall {path : Text} (quoted : QuotedPath path) : SettlesIn braces
    (requireCall path) (requireCall (List.replicate path.length Byte.space)) := by
  have opening : SettlesIn braces (ofString "require(") (ofString "require(") :=
    settlesIn_plain (forall_mem_of_all (by decide))
  have closing : SettlesIn braces (ofString ")") (ofString ")") :=
    settlesIn_plain (forall_mem_of_all (by decide))
  have spaces : Byte.singleQuote ∉ List.replicate path.length Byte.space := fun member =>
    absurd (List.eq_of_mem_replicate member) (by decide)
  rw [requireCall_of_not_mem fun member => (quoted.inside _ member).1 rfl,
    requireCall_of_not_mem spaces]
  exact (opening.append (@settlesIn_quoted braces .single path quoted.inside quoted.closes)).append
    closing

theorem settlesIn_constant {target value masked : Text} (settles : SettlesIn braces target target)
    (others : SettlesIn braces value masked) :
    SettlesIn braces (constant target value) (constant target masked) := by
  have opening : SettlesIn braces (ofString "const ") (ofString "const ") :=
    settlesIn_plain (forall_mem_of_all (by decide))
  have equals : SettlesIn braces (ofString " = ") (ofString " = ") :=
    settlesIn_plain (forall_mem_of_all (by decide))
  exact ((opening.append settles).append equals).append others

private theorem settlesIn_exportsPattern {named : List (Text × Text)}
    (names : ∀ entry ∈ named, entry.1.isIdentifier = true ∧ entry.2.isIdentifier = true) :
    SettlesIn braces (exportsPattern named) (exportsPattern named) := by
  let entries := named.map fun entry =>
    if entry.1 = entry.2 then entry.1 else entry.1 ++ ofString ": " ++ entry.2
  have shape : exportsPattern named = Byte.openBrace ::
      ([Byte.space] ++ join ", " entries ++ [Byte.space]) ++ [Byte.closeBrace] := by
    have opening : ofString "\x7b " = [Byte.openBrace, Byte.space] := rfl
    have closing : ofString " \x7d" = [Byte.space, Byte.closeBrace] := rfl
    simp [exportsPattern, opening, closing, entries]
  have separator : ∀ b ∈ ofString ", ", Plain b := forall_mem_of_all (by decide)
  have colon : ∀ b ∈ ofString ": ", Plain b := forall_mem_of_all (by decide)
  have blank : ∀ b ∈ [Byte.space], Plain b := forall_mem_of_all (by decide)
  rw [shape]
  refine settlesIn_braced (List.forall_mem_append.mpr ⟨List.forall_mem_append.mpr
    ⟨blank, fun b member => ?_⟩, blank⟩)
  rcases mem_join member with member | ⟨_, found, inside⟩
  · exact separator b member
  obtain ⟨⟨imported, bound⟩, entry, rfl⟩ := List.mem_map.mp found
  obtain ⟨first, second⟩ := names _ entry
  dsimp only at inside
  split at inside
  · exact plain_of_name first b inside
  · exact List.forall_mem_append.mpr ⟨List.forall_mem_append.mpr
      ⟨plain_of_name first, colon⟩, plain_of_name second⟩ b inside

/-- The one name that an import binds is an identifier. -/
theorem isIdentifier_of_sole {statement : Import} (spelled : statement.Spelled) {name : Text}
    (sole : soleName? statement = some name) : name.isIdentifier = true := by
  unfold soleName? at sole
  split at sole
  · next found _ _ =>
    obtain rfl := Option.some.inj sole
    exact spelled.default _ found
  · next found _ =>
    obtain rfl := Option.some.inj sole
    exact spelled.namespaceAlias _ found
  · contradiction

private theorem settlesIn_linesOf {count : Nat} {statement : Import} (spelled : statement.Spelled)
    (quoted : QuotedPath statement.path) :
    ∀ line ∈ linesOf count statement, SettlesIn braces line.text line.masked.text := by
  have call := @settlesIn_requireCall braces _ quoted
  have named {name : Text} (plain : ∀ b ∈ name, Plain b) :
      SettlesIn braces (constant name (requireCall statement.path))
        (constant name (requireCall (List.replicate statement.path.length Byte.space))) :=
    settlesIn_constant (settlesIn_plain plain) call
  have reads : SettlesIn braces (temporary count) (temporary count) :=
    settlesIn_plain (plain_temporary count)
  unfold linesOf
  intro line member
  split at member
  · obtain rfl := List.mem_singleton.mp member
    exact call.append (settlesIn_plain (forall_mem_of_all (by decide)))
  split at member
  · next name bound =>
    obtain rfl := List.mem_singleton.mp member
    exact named (plain_of_name (isIdentifier_of_sole spelled bound))
  · rcases List.mem_cons.mp member with rfl | member
    · exact named (plain_temporary count)
    obtain ⟨target, found, rfl⟩ := List.mem_map.mp member
    refine settlesIn_constant ?_ reads
    rcases List.mem_append.mp found with assigned | taken
    · refine settlesIn_plain (plain_of_name ?_)
      rcases List.mem_append.mp assigned with found | found
      · exact spelled.default target (Option.mem_toList.mp found)
      · exact spelled.namespaceAlias target (Option.mem_toList.mp found)
    · split at taken
      · exact absurd taken List.not_mem_nil
      · obtain rfl := List.mem_singleton.mp taken
        exact settlesIn_exportsPattern spelled.exports

private theorem settlesIn_join {lines : List ImportLine}
    (settles : ∀ line ∈ lines, SettlesIn braces line.text line.masked.text) :
    SettlesIn braces (join [Byte.newline] (lines.map ImportLine.text))
      (join [Byte.newline] (lines.map fun line => line.masked.text)) := by
  have lineEnd : SettlesIn braces [Byte.newline] [Byte.newline] :=
    settlesIn_plain (forall_mem_of_all (by decide))
  induction lines with
  | nil => exact .nil
  | cons line lines ih =>
    obtain ⟨first, others⟩ := List.forall_mem_cons.mp settles
    cases lines with
    | nil => exact first
    | cons next lines => exact (first.append lineEnd).append (ih others)

/-- What is generated for an import that stands in code leaves the scanner in that code. -/
theorem leavesAlike_of_inCode {script : Text} (string : IsString script) {statement : Import}
    (member : statement ∈ Import.all script) (inCode : InCode script statement) (count : Nat) :
    LeavesAlike script (statement.span, (requireStatements count statement).1) := by
  obtain ⟨code, free, ends, closes⟩ := inCode
  obtain ⟨braces, begins⟩ : ∃ braces,
      stateAt script statement.span.start = ⟨.code, false, braces⟩ :=
    ⟨_, by rw [← code, ← free]⟩
  cases types : statement.typeOnly with
  | true => simp [LeavesAlike, requireStatements, types, ends]
  | false =>
    rw [requireStatements_eq types]
    have quoted : QuotedPath statement.path := ⟨Import.open_path string member, closes⟩
    exact (settlesIn_join (settlesIn_linesOf (Import.spelled_of_mem_all string member)
      quoted)).leavesAlike begins (ends.trans begins)

/-- What is generated for imports that stand in code leaves the scanner in that code. -/
theorem leavesAlike_requireEdits {script : Text} (string : IsString script) {imports : List Import}
    (code : ∀ statement ∈ imports, statement ∈ Import.all script ∧ InCode script statement)
    (count : Nat) : ∀ edit ∈ (requireEdits count imports).1, LeavesAlike script edit := by
  intro edit member
  obtain ⟨statement, found, before, rfl⟩ := exists_of_mem_requireEdits member
  obtain ⟨known, inCode⟩ := code statement found
  exact leavesAlike_of_inCode string known inCode before

end InCode

end ComponentScript

end BareComponent
