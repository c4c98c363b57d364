import BareComponent.Proofs.Component.Clause
import BareComponent.Proofs.Pattern.Preferred

/-! # Printed imports

An import is printed as its words with white space between them, and reading a printed import gives
back what it was printed from. Four layouts are misread: white space that is left out behind
`import` or `type`, a named export that is lost, and a default name `type` that stands apart from
what follows it, which is taken for the mark of an import of types.
-/

namespace BareComponent

open Text Pattern Cursor RequireLine

/-- An import with the white space between its words. -/
structure PrintedImport where
  /-- The white space behind `import`. A name needs some, but a brace or an asterisk does not. -/
  gap : PrintedImport.Gap
  /-- The white space behind `type`, if the import is for types only. -/
  modifier : Option PrintedImport.Gap
  clause : PrintedImport.Clause
  /-- The white space in front of `from`. -/
  before : PrintedImport.Space
  /-- The white space behind `from`. -/
  behind : PrintedImport.Space
  quote : Quote
  path : List Char
  pathValid : path ≠ [] ∧ ∀ c ∈ path, c ∉ ['\x27', '\x22', '\n']

namespace PrintedImport

/-- The word `type` and the white space behind it. -/
def mark (printed : PrintedImport) : List Char :=
  match printed.modifier with
  | none => []
  | some gap => "type".toList ++ gap.val

/-- The mark and the clause. -/
def body (printed : PrintedImport) : List Char := printed.mark ++ printed.clause.spelled

def words (printed : PrintedImport) : List Char :=
  printed.gap.val ++ printed.body ++ printed.before.val

/-- The characters in front of the path. -/
def front (printed : PrintedImport) : List Char :=
  "import".toList ++ (printed.words ++ ("from".toList ++ printed.behind.val))

def quoted (printed : PrintedImport) : List Char :=
  printed.quote.character :: printed.path ++ [printed.quote.character]

def spelled (printed : PrintedImport) : List Char :=
  printed.front ++ printed.quoted

def statement (printed : PrintedImport) : Import where
  span := ⟨0, (encode printed.spelled).length⟩
  defaultName := printed.clause.bound.defaultName
  namespaceName := printed.clause.bound.namespaceName
  named := printed.clause.bound.named
  path := encode printed.path
  typeOnly := printed.modifier.isSome

section Path

private abbrev IsQuote (c : Char) : Prop := CharacterClass.oneOf "'\"" c.toNat = true

private theorem isQuote_iff {c : Char} : IsQuote c ↔ c ∈ ['\x27', '\x22'] :=
  CharacterClass.oneOf_encode (forall_mem_of_all (by decide)) c

private theorem isQuote_character (quote : Quote) : IsQuote quote.character := by
  cases quote <;> decide

private theorem noneOf_iff {c : Char} :
    CharacterClass.noneOf "'\"\n" c.toNat = true ↔ c ∉ ['\x27', '\x22', '\n'] := by
  have member : CharacterClass.oneOf "'\"\n" c.toNat = true ↔ c ∈ ['\x27', '\x22', '\n'] :=
    CharacterClass.oneOf_encode (forall_mem_of_all (by decide)) c
  rw [CharacterClass.noneOf, Bool.not_eq_true', ← Bool.not_eq_true, member]

private def quotedPath {α : Type} (value : Span → α) : Pattern α := do
  Pattern.character (.oneOf "'\"")
  let path ← Pattern.spanned (Pattern.run1 (.noneOf "'\"\n"))
  Pattern.character (.oneOf "'\"")
  Pattern.run (.oneOf " \t")
  let _ ← Pattern.optional (Pattern.literal ";")
  pure (value path)

variable {α : Type} {value : Span → α} {read : α} {before after : List Char} {cursor : Cursor}

private theorem isQuote_of_mem_quotedPath
    (member : (read, cursor) ∈ quotedPath value (between before after)) :
    ∃ c rest, after = c :: rest ∧ IsQuote c := by
  obtain ⟨_, _, opened, -⟩ := mem_bind.mp member
  obtain ⟨c, rest, rfl, quotes, -⟩ := mem_character.mp opened
  exact ⟨c, rest, rfl, quotes⟩

variable (printed : PrintedImport)

/-- Where a path stands whose opening quote stands behind some characters. -/
def pathSpan (before : List Char) : Span :=
  ⟨(encode (before ++ [printed.quote.character])).length,
    (encode (before ++ printed.quote.character :: printed.path)).length⟩

private theorem mem_quotedPath :
    (read, cursor) ∈ quotedPath value (between before printed.quoted) ↔
      read = value (printed.pathSpan before) ∧ cursor = between (before ++ printed.quoted) [] := by
  have inside : ∀ c ∈ printed.path, CharacterClass.noneOf "'\"\n" c.toNat = true := fun c member =>
    noneOf_iff.mpr (printed.pathValid.2 c member)
  have stops : ∀ c ∈ [printed.quote.character].head?,
      CharacterClass.noneOf "'\"\n" c.toNat = false := by
    cases printed.quote <;> simp [Quote.character] <;> decide
  have quotes := isQuote_character printed.quote
  simp only [quotedPath, quoted, mem_bind, mem_spanned, mem_pure]
  constructor
  · rintro ⟨_, _, opened, _, _, ⟨content, rfl⟩, _, _, closed, _, _, gap, _, _, ended, rfl, rfl⟩
    obtain ⟨_, _, shape, -, rfl⟩ := mem_character.mp opened
    obtain ⟨rfl, rfl⟩ := List.cons.inj shape
    obtain ⟨path, rest, shape, -, plain, dark, rfl⟩ := mem_run1.mp content
    obtain ⟨rfl, rfl⟩ := append_inj_of_run
      (fun c : Char => CharacterClass.noneOf "'\"\n" c.toNat) shape inside plain stops dark
    obtain ⟨_, _, shape, -, rfl⟩ := mem_character.mp closed
    obtain ⟨rfl, rfl⟩ := List.cons.inj shape
    obtain ⟨blanks, rest, shape, -, -, rfl⟩ := mem_run.mp gap
    obtain ⟨rfl, rfl⟩ := List.append_eq_nil_iff.mp shape.symm
    rcases mem_optional.mp ended with ⟨_, -, semicolon⟩ | ⟨-, rfl⟩
    · obtain ⟨_, shape, -⟩ := exists_of_mem_literal (c := ';') rfl semicolon
      contradiction
    · simp [pathSpan]
  · rintro ⟨rfl, rfl⟩
    refine ⟨(), _, mem_character.mpr ⟨_, _, rfl, quotes, rfl⟩, _, _, ⟨mem_run1.mpr ⟨_, _, rfl,
      printed.pathValid.1, inside, stops, rfl⟩, rfl⟩, (), _, mem_character.mpr ⟨_, _, rfl, quotes,
      rfl⟩, (), _, mem_run.mpr ⟨[], [], rfl, by simp, by simp, rfl⟩, none, _,
      mem_optional.mpr (.inr ⟨rfl, rfl⟩), ?_, ?_⟩
    · simp [pathSpan]
    · simp

end Path

section Pattern

private def typeMark : Pattern Unit := do
  Pattern.literal "type"
  Pattern.many1 .blank

private def clauseUpToFrom : Pattern Span := do
  let clause ← Pattern.spanned (Pattern.fewest (.noneOf "'\""))
  Pattern.blanks1
  Pattern.literal "from"
  Pattern.blanks1
  pure clause

private def unmarked (typeOnly : Option Unit) : Pattern (Bool × Option Span × Span) := do
  let clause ← Pattern.optional clauseUpToFrom
  quotedPath fun path => (typeOnly.isSome, clause, path)

private theorem pattern_eq : Import.pattern = (do
    Pattern.lineStart
    Pattern.run (.oneOf " \t")
    Pattern.literal "import"
    Pattern.many1 .blank
    let typeOnly ← Pattern.optional typeMark
    unmarked typeOnly) := rfl

variable {before after : List Char} {cursor : Cursor} {span : Span}

private theorem mem_typeMark {value : Unit} :
    (value, cursor) ∈ typeMark (between before after) ↔ ∃ gap rest,
      after = "type".toList ++ gap ++ rest ∧ Blank gap ∧ gap ≠ [] ∧
        cursor = between (before ++ "type".toList ++ gap) rest := by
  have word : ("type" : Text) = encode "type".toList := rfl
  simp only [typeMark, mem_bind, word]
  constructor
  · rintro ⟨_, _, type, blanks⟩
    obtain ⟨_, rfl, rfl⟩ := mem_literal.mp type
    obtain ⟨gap, rest, rfl, nonempty, blank, rfl⟩ := mem_many1.mp blanks
    exact ⟨gap, rest, by simp, blank, nonempty, rfl⟩
  · rintro ⟨gap, rest, rfl, blank, nonempty, rfl⟩
    rw [List.append_assoc]
    exact ⟨(), _, literal_mem .., mem_many1.mpr ⟨gap, rest, rfl, nonempty, blank, rfl⟩⟩

private theorem mem_clauseUpToFrom : (span, cursor) ∈ clauseUpToFrom (between before after) ↔
    ∃ clause gap space rest, after = clause ++ gap ++ "from".toList ++ space ++ rest ∧
      (∀ c ∈ clause, ¬IsQuote c) ∧ Blank gap ∧ gap ≠ [] ∧ Blank space ∧ space ≠ [] ∧
      (∀ c ∈ rest.head?, CharacterClass.blank c.toNat = false) ∧
      span = ⟨(encode before).length, (encode (before ++ clause)).length⟩ ∧
      cursor = between (before ++ clause ++ gap ++ "from".toList ++ space) rest := by
  have word : ("from" : Text) = encode "from".toList := rfl
  have unquoted (c : Char) : CharacterClass.noneOf "'\"" c.toNat = true ↔ ¬IsQuote c := by
    rw [CharacterClass.noneOf, Bool.not_eq_true', ← Bool.not_eq_true]
  simp only [clauseUpToFrom, mem_bind, mem_spanned, mem_pure, blanks1, word]
  constructor
  · rintro ⟨_, _, ⟨read, rfl⟩, _, _, first, _, _, fromRead, _, _, second, rfl, rfl⟩
    obtain ⟨clause, _, rfl, plain, rfl⟩ := mem_fewest.mp read
    obtain ⟨gap, _, rfl, nonempty, blank, -, rfl⟩ := mem_run1.mp first
    obtain ⟨_, rfl, rfl⟩ := mem_literal.mp fromRead
    obtain ⟨space, rest, rfl, others, spaceBlank, dark, rfl⟩ := mem_run1.mp second
    exact ⟨clause, gap, space, rest, by simp, fun c member => (unquoted c).mp (plain c member),
      blank, nonempty, spaceBlank, others, dark, by simp, rfl⟩
  · rintro ⟨clause, gap, space, rest, rfl, plain, blank, nonempty, spaceBlank, others, dark, rfl,
      rfl⟩
    have inside : ∀ c ∈ clause, CharacterClass.noneOf "'\"" c.toNat = true :=
      fun c member => (unquoted c).mpr (plain c member)
    have letter : CharacterClass.blank 'f'.toNat = false := by decide
    simp only [List.append_assoc]
    exact ⟨_, _, ⟨mem_fewest.mpr ⟨clause, _, rfl, inside, rfl⟩, rfl⟩,
      (), _, mem_run1.mpr ⟨gap, _, rfl, nonempty, blank, by simpa using letter, rfl⟩,
      (), _, literal_mem ..,
      (), _, mem_run1.mpr ⟨space, rest, rfl, others, spaceBlank, dark, rfl⟩, by simp, by simp⟩

/-- Whether some characters are read as the mark of an import of types, or as no mark. -/
private def IsMark (typeOnly : Bool) (mark : List Char) : Prop :=
  match typeOnly with
  | false => mark = []
  | true => ∃ gap, mark = "type".toList ++ gap ∧ Blank gap ∧ gap ≠ []

private theorem mem_optional_typeMark {typeOnly : Option Unit} :
    (typeOnly, cursor) ∈ Pattern.optional typeMark (between before after) ↔ ∃ mark rest,
      after = mark ++ rest ∧ IsMark typeOnly.isSome mark ∧
        cursor = between (before ++ mark) rest := by
  rw [mem_optional]
  constructor
  · rintro (⟨_, rfl, here⟩ | ⟨rfl, rfl⟩)
    · obtain ⟨gap, rest, rfl, blank, nonempty, rfl⟩ := mem_typeMark.mp here
      exact ⟨_, rest, rfl, ⟨gap, rfl, blank, nonempty⟩, by simp⟩
    · exact ⟨[], after, rfl, rfl, by simp⟩
  · rintro ⟨mark, rest, rfl, isMark, rfl⟩
    cases typeOnly with
    | none =>
      obtain rfl : mark = [] := isMark
      exact .inr ⟨rfl, by simp⟩
    | some read =>
      obtain ⟨gap, rfl, blank, nonempty⟩ := isMark
      exact .inl ⟨read, rfl, mem_typeMark.mpr ⟨gap, rest, rfl, blank, nonempty, by simp⟩⟩

private theorem not_isQuote_of_blank {gap : List Char} (blank : Blank gap) :
    ∀ c ∈ gap, ¬IsQuote c := by
  intro c member quote
  have light := blank c member
  rcases (by simpa using isQuote_iff.mp quote : c = '\x27' ∨ c = '\x22') with rfl | rfl
  · exact absurd light (by decide)
  · exact absurd light (by decide)

private theorem not_isQuote_of_isMark {typeOnly : Bool} {mark : List Char}
    (isMark : IsMark typeOnly mark) : ∀ c ∈ mark, ¬IsQuote c := by
  cases typeOnly with
  | false =>
    obtain rfl : mark = [] := isMark
    simp
  | true =>
    obtain ⟨gap, rfl, blank, -⟩ := isMark
    have word : ∀ c ∈ "type".toList, ¬IsQuote c := forall_mem_of_all (by decide)
    exact List.forall_mem_append.mpr ⟨word, not_isQuote_of_blank blank⟩

variable (printed : PrintedImport)

private theorem exists_of_append_quoted {front other rest : List Char}
    (same : front ++ printed.quoted = other ++ rest) (unquoted : ∀ c ∈ other, ¬IsQuote c) :
    ∃ more, front = other ++ more ∧ rest = more ++ printed.quoted := by
  rcases List.append_eq_append_iff.mp same with ⟨more, rfl, split⟩ | ⟨more, rfl, split⟩
  · cases more with
    | nil => exact ⟨[], by simp, split.symm⟩
    | cons c more =>
      obtain ⟨rfl, -⟩ := List.cons.inj split
      exact absurd (isQuote_character printed.quote) (unquoted _ (by simp))
  · exact ⟨more, rfl, split⟩

private theorem eq_of_append_quoted {front other rest : List Char}
    (same : front ++ printed.quoted = other ++ rest) (frontOpen : ∀ c ∈ front, ¬IsQuote c)
    (otherOpen : ∀ c ∈ other, ¬IsQuote c) (quotes : ∃ c tail, rest = c :: tail ∧ IsQuote c) :
    front = other ∧ rest = printed.quoted := by
  obtain ⟨more, rfl, split⟩ := printed.exists_of_append_quoted same otherOpen
  obtain ⟨c, tail, rfl, quote⟩ := quotes
  cases more with
  | nil => exact ⟨by simp, split⟩
  | cons d more =>
    obtain ⟨rfl, -⟩ := List.cons.inj split
    exact absurd quote (frontOpen c (by simp))

private theorem typeOnly_of_mem_unmarked {typeOnly : Option Unit}
    {read : Bool × Option Span × Span} {start : Cursor}
    (member : (read, cursor) ∈ unmarked typeOnly start) : read.1 = typeOnly.isSome := by
  simp only [unmarked, quotedPath, mem_bind, mem_pure] at member
  obtain ⟨_, _, -, _, _, -, _, _, -, _, _, -, _, _, -, _, _, -, rfl, -⟩ := member
  rfl

private theorem mem_unmarked {typeOnly : Option Unit} {front : List Char}
    {read : Bool × Option Span × Span} (unquoted : ∀ c ∈ front, ¬IsQuote c) :
    (read, cursor) ∈ unmarked typeOnly (between before (front ++ printed.quoted)) ↔
      cursor = between (before ++ front ++ printed.quoted) [] ∧
      ((front = [] ∧ read = (typeOnly.isSome, none, printed.pathSpan before)) ∨
        ∃ clause gap space, front = clause ++ gap ++ "from".toList ++ space ∧ Blank gap ∧ gap ≠ [] ∧
          Blank space ∧ space ≠ [] ∧ read = (typeOnly.isSome,
            some ⟨(encode before).length, (encode (before ++ clause)).length⟩,
            printed.pathSpan (before ++ front))) := by
  have quoteDark : ∀ c ∈ printed.quoted.head?, CharacterClass.blank c.toNat = false := by
    unfold quoted
    cases printed.quote <;> simp [Quote.character] <;> decide
  rw [unmarked, mem_bind]
  constructor
  · rintro ⟨span, middle, bound, path⟩
    rcases mem_optional.mp bound with ⟨span, rfl, here⟩ | ⟨rfl, rfl⟩
    · obtain ⟨clause, gap, space, rest, split, plain, blank, nonempty, spaceBlank, others, -, rfl,
        rfl⟩ := mem_clauseUpToFrom.mp here
      have otherOpen : ∀ c ∈ clause ++ gap ++ "from".toList ++ space, ¬IsQuote c := by
        simp only [List.forall_mem_append]
        exact ⟨⟨⟨plain, not_isQuote_of_blank blank⟩, forall_mem_of_all (by decide)⟩,
          not_isQuote_of_blank spaceBlank⟩
      obtain ⟨rfl, rfl⟩ := printed.eq_of_append_quoted split unquoted otherOpen
        (isQuote_of_mem_quotedPath path)
      obtain ⟨rfl, rfl⟩ := printed.mem_quotedPath.mp path
      exact ⟨by simp, .inr ⟨clause, gap, space, rfl, blank, nonempty, spaceBlank, others, by simp⟩⟩
    · obtain ⟨rfl, -⟩ := printed.eq_of_append_quoted (List.nil_append _).symm unquoted
        (by simp) (isQuote_of_mem_quotedPath path)
      obtain ⟨rfl, rfl⟩ := printed.mem_quotedPath.mp path
      exact ⟨by simp, .inl ⟨rfl, rfl⟩⟩
  · rintro ⟨rfl, ⟨rfl, rfl⟩ | ⟨clause, gap, space, rfl, blank, nonempty, spaceBlank, others, rfl⟩⟩
    · refine ⟨none, _, mem_optional.mpr (.inr ⟨rfl, rfl⟩), ?_⟩
      simp [mem_quotedPath]
    · refine ⟨some _, _, mem_optional.mpr (.inl ⟨_, rfl, mem_clauseUpToFrom.mpr ⟨clause, gap, space,
        printed.quoted, rfl, fun c member => unquoted c (by simp [member]), blank, nonempty,
        spaceBlank, others, quoteDark, rfl, rfl⟩⟩), ?_⟩
      simp [mem_quotedPath]

private theorem not_isQuote_of_mem_body : ∀ c ∈ printed.body, ¬IsQuote c := by
  have mark : ∀ c ∈ printed.mark, ¬IsQuote c := by
    unfold PrintedImport.mark
    split
    · simp
    · next gap _ =>
      rw [List.forall_mem_append]
      exact ⟨forall_mem_of_all (by decide), not_isQuote_of_blank gap.property⟩
  have clause : ∀ c ∈ printed.clause.spelled, ¬IsQuote c := by
    intro c member quote
    rcases (by simpa using isQuote_iff.mp quote : c = '\x27' ∨ c = '\x22') with rfl | rfl
    · exact printed.clause.not_mem_spelled (by decide) (by decide) member
    · exact printed.clause.not_mem_spelled (by decide) (by decide) member
  rw [body, List.forall_mem_append]
  exact ⟨mark, clause⟩

private theorem not_isQuote_of_mem_front : ∀ c ∈ printed.front, ¬IsQuote c := by
  have first : ∀ c ∈ "import".toList, ¬IsQuote c := forall_mem_of_all (by decide)
  have second : ∀ c ∈ "from".toList, ¬IsQuote c := forall_mem_of_all (by decide)
  intro c member
  unfold front words at member
  simp only [List.mem_append] at member
  rcases member with word | ((gap | body) | before) | word | behind
  · exact first c word
  · exact not_isQuote_of_blank printed.gap.property c gap
  · exact printed.not_isQuote_of_mem_body c body
  · exact not_isQuote_of_blank printed.before.property.1 c before
  · exact second c word
  · exact not_isQuote_of_blank printed.behind.property.1 c behind

/-- A way to cut the characters between `import` and `from` into white space, a mark and a
clause. -/
private structure Reading where
  typeOnly : Bool
  gap : List Char
  mark : List Char
  clause : List Char
  space : List Char
  gapValid : Blank gap ∧ gap ≠ []
  markValid : IsMark typeOnly mark
  spaceValid : Blank space ∧ space ≠ []
  split : printed.words = gap ++ mark ++ clause ++ space

private def Reading.value {printed : PrintedImport} (reading : printed.Reading) :
    Bool × Option Span × Span :=
  let before := "import".toList ++ reading.gap ++ reading.mark
  (reading.typeOnly, some ⟨(encode before).length, (encode (before ++ reading.clause)).length⟩,
    printed.pathSpan printed.front)

private theorem spelled_eq : printed.spelled = "import".toList ++
    (printed.words ++ ("from".toList ++ printed.behind.val) ++ printed.quoted) := by
  unfold spelled front
  rw [List.append_assoc]

private theorem pattern_begins : Import.pattern (between [] printed.spelled) =
    (Pattern.many1 .blank >>= fun _ => Pattern.optional typeMark >>= unmarked)
      (between "import".toList
        (printed.words ++ ("from".toList ++ printed.behind.val) ++ printed.quoted)) := by
  have starts : Pattern.lineStart (between [] printed.spelled) =
      [((), between [] printed.spelled)] := rfl
  have unindented : Pattern.run (.oneOf " \t") (between [] printed.spelled) =
      [((), between [] printed.spelled)] := by
    rw [spelled_eq]
    rfl
  have word : Pattern.literal "import" (between [] printed.spelled) =
      [((), between "import".toList
        (printed.words ++ ("from".toList ++ printed.behind.val) ++ printed.quoted))] := by
    rw [spelled_eq]
    exact literal_between [] "import".toList _
  rw [pattern_eq, bind_of_eq_singleton starts, bind_of_eq_singleton unindented,
    bind_of_eq_singleton word]

private theorem dark_getLast?_from (front : List Char) :
    ∀ c ∈ (front ++ "from".toList).getLast?, CharacterClass.blank c.toNat = false :=
  dark_getLast?_of_name (show IsName "from".toList from
    ⟨by decide, forall_mem_of_all (by decide)⟩) front

private theorem words_eq {gap mark clause space rest : List Char}
    (same : printed.words ++ ("from".toList ++ printed.behind.val) =
      gap ++ mark ++ (clause ++ space ++ "from".toList ++ rest))
    (blank : Blank rest) : printed.words = gap ++ mark ++ clause ++ space := by
  have regrouped : printed.words ++ "from".toList ++ printed.behind.val =
      gap ++ mark ++ clause ++ space ++ "from".toList ++ rest := by simpa using same
  obtain ⟨words, -⟩ := eq_of_append_blank regrouped printed.behind.property.1 blank
    (dark_getLast?_from _) (dark_getLast?_from _)
  exact List.append_cancel_right words

private theorem words_ne {gap mark : List Char} {typeOnly : Bool} (blank : Blank gap)
    (isMark : IsMark typeOnly mark) :
    printed.words ++ ("from".toList ++ printed.behind.val) ≠ gap ++ mark := by
  intro same
  cases typeOnly with
  | false =>
    obtain rfl : mark = [] := isMark
    have letter : 'f' ∈ gap := by
      rw [List.append_nil] at same
      simp [← same]
    exact absurd (blank 'f' letter) (by decide)
  | true =>
    obtain ⟨space, rfl, spaceBlank, -⟩ := isMark
    rw [← List.append_assoc, ← List.append_assoc] at same
    have typeName : IsName "type".toList :=
      ⟨by decide, forall_mem_of_all (by decide)⟩
    obtain ⟨words, -⟩ := eq_of_append_blank same printed.behind.property.1 spaceBlank
      (dark_getLast?_from _) (dark_getLast?_of_name typeName gap)
    exact absurd (List.append_inj_right' words rfl) (by decide)

namespace Reading

variable {printed} (reading : printed.Reading)

private def rest : List Char :=
  reading.clause ++ (reading.space ++ ("from".toList ++ printed.behind.val))

private theorem words_eq : printed.words ++ ("from".toList ++ printed.behind.val) =
    reading.gap ++ (reading.mark ++ reading.rest) := by
  unfold rest
  rw [reading.split]
  simp only [List.append_assoc]

private theorem spelled_eq : printed.spelled =
    "import".toList ++ (reading.gap ++ (reading.mark ++ (reading.rest ++ printed.quoted))) := by
  rw [PrintedImport.spelled_eq, reading.words_eq]
  simp only [List.append_assoc]

private theorem mem_unmarked {typeOnly : Option Unit}
    (same : typeOnly.isSome = reading.typeOnly) :
    (reading.value, between printed.spelled []) ∈ unmarked typeOnly
      (between ("import".toList ++ reading.gap ++ reading.mark)
        (reading.rest ++ printed.quoted)) := by
  have passed : "import".toList ++ reading.gap ++ reading.mark ++ reading.rest =
      printed.front := by
    unfold front
    rw [reading.words_eq]
    simp only [List.append_assoc]
  have plain : ∀ c ∈ reading.rest, ¬IsQuote c := fun c member =>
    printed.not_isQuote_of_mem_front c <| by
      rw [← passed]
      exact List.mem_append_right _ member
  refine (printed.mem_unmarked plain).mpr ⟨?_, .inr ⟨reading.clause, reading.space,
    printed.behind.val, ?_, reading.spaceValid.1, reading.spaceValid.2,
    printed.behind.property.1, printed.behind.property.2, ?_⟩⟩
  · rw [passed]
    rfl
  · unfold rest
    simp only [List.append_assoc]
  · rw [passed, same]
    rfl

end Reading

private theorem exists_reading {read : Bool × Option Span × Span}
    (member : (read, cursor) ∈ Import.pattern (between [] printed.spelled)) :
    cursor = between printed.spelled [] ∧ ∃ reading : printed.Reading, read = reading.value := by
  rw [pattern_begins] at member
  obtain ⟨_, _, gaps, others⟩ := mem_bind.mp member
  obtain ⟨gap, behind, same, nonempty, blank, rfl⟩ := mem_many1.mp gaps
  obtain ⟨typeOnly, _, marked, others⟩ := mem_bind.mp others
  obtain ⟨mark, behind, rfl, markValid, rfl⟩ := mem_optional_typeMark.mp marked
  have plain : ∀ c ∈ gap ++ mark, ¬IsQuote c := List.forall_mem_append.mpr
    ⟨not_isQuote_of_blank blank, not_isQuote_of_isMark markValid⟩
  have cut : printed.words ++ ("from".toList ++ printed.behind.val) ++ printed.quoted =
      gap ++ mark ++ behind := by rw [same, List.append_assoc]
  obtain ⟨more, split, rfl⟩ := printed.exists_of_append_quoted cut plain
  have passed : "import".toList ++ gap ++ mark ++ more = printed.front := by
    unfold front
    rw [split]
    simp only [List.append_assoc]
  have morePlain : ∀ c ∈ more, ¬IsQuote c := fun c member =>
    printed.not_isQuote_of_mem_front c <| by
      rw [← passed]
      exact List.mem_append_right _ member
  obtain ⟨rfl, read⟩ := (printed.mem_unmarked morePlain).mp others
  rcases read with ⟨rfl, rfl⟩ |
    ⟨clause, space, rest, rfl, spaceBlank, space_some, restBlank, -, rfl⟩
  · rw [List.append_nil] at split
    exact absurd split (printed.words_ne blank markValid)
  · refine ⟨?_, ⟨typeOnly.isSome, gap, mark, clause, space, ⟨blank, nonempty⟩, markValid,
      ⟨spaceBlank, space_some⟩, printed.words_eq split restBlank⟩, ?_⟩
    · rw [passed]
      rfl
    · rw [Reading.value, passed]

private theorem mem_pattern {read : Bool × Option Span × Span} :
    (read, cursor) ∈ Import.pattern (between [] printed.spelled) ↔
      cursor = between printed.spelled [] ∧ ∃ reading : printed.Reading, read = reading.value := by
  refine ⟨printed.exists_reading, ?_⟩
  rintro ⟨rfl, reading, rfl⟩
  obtain ⟨typeOnly, same⟩ : ∃ typeOnly : Option Unit, typeOnly.isSome = reading.typeOnly := by
    cases reading.typeOnly with
    | false => exact ⟨none, rfl⟩
    | true => exact ⟨some (), rfl⟩
  rw [pattern_begins, reading.words_eq]
  simp only [List.append_assoc]
  exact mem_bind.mpr ⟨(), _, mem_many1.mpr ⟨reading.gap, _, rfl, reading.gapValid.2,
    reading.gapValid.1, rfl⟩, mem_bind.mpr ⟨typeOnly, _,
      mem_optional_typeMark.mpr ⟨reading.mark, _, rfl, same ▸ reading.markValid, rfl⟩,
      reading.mem_unmarked same⟩⟩

private theorem head?_pattern (reading : printed.Reading) (typed : reading.typeOnly = true) :
    ∃ value, (Import.pattern (between [] printed.spelled)).head? = some value ∧
      value.1.1 = true := by
  obtain ⟨gap, markEq, gapBlank, gapSome⟩ : ∃ gap, reading.mark = "type".toList ++ gap ∧
      Blank gap ∧ gap ≠ [] := by
    have isMark := reading.markValid
    rwa [typed] at isMark
  let behind := reading.mark ++ (reading.rest ++ printed.quoted)
  have passed : (Pattern.many1 .blank (between "import".toList (reading.gap ++ behind))).head? =
      some ((), between ("import".toList ++ reading.gap) behind) := by
    refine head?_many1 _ reading.gapValid.2 reading.gapValid.1 fun c letter => ?_
    simp only [behind, markEq, List.append_assoc] at letter
    obtain rfl : 't' = c := Option.some.inj letter
    decide
  have marked : ((), between ("import".toList ++ reading.gap ++ reading.mark)
      (reading.rest ++ printed.quoted)) ∈
        typeMark (between ("import".toList ++ reading.gap) behind) :=
    mem_typeMark.mpr ⟨gap, reading.rest ++ printed.quoted, by simp only [behind, markEq],
      gapBlank, gapSome, by rw [markEq, ← List.append_assoc]⟩
  have member : (reading.value, between printed.spelled []) ∈
      (typeMark >>= fun read => unmarked (some read))
        (between ("import".toList ++ reading.gap) behind) :=
    mem_bind.mpr ⟨(), _, marked, reading.mem_unmarked typed.symm⟩
  obtain ⟨value, others, shape⟩ := List.exists_cons_of_ne_nil (List.ne_nil_of_mem member)
  have preferred : ((Pattern.optional typeMark >>= unmarked)
      (between ("import".toList ++ reading.gap) behind)).head? = some value := by
    rw [optional_bind, shape]
    rfl
  obtain ⟨read, _, -, inside⟩ := mem_bind.mp (shape ▸ List.mem_cons_self : value ∈
    (typeMark >>= fun read => unmarked (some read))
      (between ("import".toList ++ reading.gap) behind))
  have begins : Import.pattern (between [] printed.spelled) =
      (Pattern.many1 .blank >>= fun _ => Pattern.optional typeMark >>= unmarked)
        (between "import".toList (reading.gap ++ behind)) := by
    rw [pattern_begins, reading.words_eq]
    simp only [behind, List.append_assoc]
  exact ⟨value, begins ▸ head?_bind passed preferred, typeOnly_of_mem_unmarked inside⟩

end Pattern

/-- Whether a default name `type` stands apart from what follows it. -/
def TakenForMark (printed : PrintedImport) : Prop :=
  printed.modifier = none ∧ match printed.clause with
    | .alone name => name.val = "type".toList ∧ 2 ≤ printed.before.val.length
    | .bindings _ => False
    | .both name before _ _ => name.val = "type".toList ∧ before.val ≠ []

/-- The ways in which a printed import is misread. -/
inductive Misread (printed : PrintedImport) : Prop
  /-- No white space stands behind `import`. -/
  | gap (nothing : printed.gap.val = [])
  /-- No white space stands behind the mark `type`. -/
  | modifier (gap : Gap) (marked : printed.modifier = some gap) (nothing : gap.val = [])
  /-- The default name is taken for the mark. -/
  | default (taken : printed.TakenForMark)
  /-- A named export is dropped. -/
  | named (specifier : Specifier) (member : specifier ∈ printed.clause.specifiers)
      (lost : specifier.Lost)

section Words

variable {printed : PrintedImport}

private theorem dark_head?_body (rest : List Char) :
    ∀ c ∈ (printed.body ++ rest).head?, CharacterClass.blank c.toNat = false := by
  unfold body mark
  cases printed.modifier with
  | none => exact printed.clause.dark_head? rest
  | some gap =>
    intro c first
    obtain rfl : 't' = c := Option.some.inj first
    decide

variable (reading : printed.Reading)

private theorem trim_clause_of_plain (plain : reading.typeOnly = false) :
    (encode reading.clause).trim = encode printed.body := by
  have isMark := reading.markValid
  rw [plain] at isMark
  have nothing : reading.mark = [] := isMark
  have split := reading.split
  have starts : ∀ c ∈ (printed.body ++ []).head?, CharacterClass.blank c.toNat = false :=
    dark_head?_body []
  rw [List.append_nil] at starts
  rw [nothing, List.append_nil] at split
  rw [← trim_encode_append reading.gapValid.1 reading.spaceValid.1, ← split]
  exact trim_encode_padded printed.gap.property printed.before.property.1 starts
    (printed.clause.dark_getLast? _)

private theorem exists_of_typed (typed : reading.typeOnly = true) : ∃ gap, Blank gap ∧ gap ≠ [] ∧
    printed.body ++ printed.before.val =
      "type".toList ++ (gap ++ reading.clause ++ reading.space) := by
  have isMark := reading.markValid
  rw [typed] at isMark
  obtain ⟨gap, markEq, blank, nonempty⟩ := isMark
  have same : printed.gap.val ++ (printed.body ++ printed.before.val) =
      reading.gap ++ ("type".toList ++ (gap ++ reading.clause ++ reading.space)) := by
    have split := reading.split
    rw [markEq, words] at split
    simpa only [List.append_assoc] using split
  have letter : ∀ c ∈ ("type".toList ++ (gap ++ reading.clause ++ reading.space)).head?,
      CharacterClass.blank c.toNat = false := by
    intro c first
    obtain rfl : 't' = c := Option.some.inj first
    decide
  exact ⟨gap, blank, nonempty, (append_inj_of_run (fun c : Char => CharacterClass.blank c.toNat) same
    printed.gap.property reading.gapValid.1 (dark_head?_body _) letter).2⟩

section Marked

variable {gap : Gap} (marked : printed.modifier = some gap)
include marked

private theorem exists_of_marked (typed : reading.typeOnly = true) :
    ∃ space, Blank space ∧ space ≠ [] ∧ gap.val ++ printed.clause.spelled ++ printed.before.val =
      space ++ reading.clause ++ reading.space := by
  obtain ⟨space, blank, nonempty, same⟩ := exists_of_typed reading typed
  rw [body, mark, marked, List.append_assoc, List.append_assoc] at same
  refine ⟨space, blank, nonempty, ?_⟩
  rw [← List.append_cancel_left same, List.append_assoc]

private theorem exists_typed_of_modifier (nonempty : printed.gap.val ≠ []) (spaced : gap.val ≠ []) :
    ∃ reading : printed.Reading, reading.typeOnly = true := by
  refine ⟨⟨true, printed.gap.val, "type".toList ++ gap.val, printed.clause.spelled,
    printed.before.val, ⟨printed.gap.property, nonempty⟩, ⟨gap.val, rfl, gap.property, spaced⟩,
    printed.before.property, ?_⟩, rfl⟩
  rw [words, body, mark, marked]
  simp only [List.append_assoc]

private theorem trim_clause_of_typed (typed : reading.typeOnly = true) :
    (encode reading.clause).trim = encode printed.clause.spelled := by
  obtain ⟨space, blank, -, cut⟩ := exists_of_marked reading marked typed
  have starts := printed.clause.dark_head? []
  have ends := printed.clause.dark_getLast? []
  rw [List.append_nil] at starts
  rw [← trim_encode_append blank reading.spaceValid.1, ← cut]
  exact trim_encode_padded gap.property printed.before.property.1 starts ends

private theorem not_typed_of_nothing (nothing : gap.val = []) : reading.typeOnly = false := by
  rw [← Bool.not_eq_true]
  intro typed
  obtain ⟨space, blank, nonempty, cut⟩ := exists_of_marked reading marked typed
  rw [nothing, List.nil_append] at cut
  obtain ⟨c, more, rfl⟩ := List.exists_cons_of_ne_nil nonempty
  have dark := printed.clause.dark_head? printed.before.val c (by rw [cut]; rfl)
  rw [blank c List.mem_cons_self] at dark
  exact Bool.false_ne_true dark.symm

end Marked

private theorem eq_type_of_append {name : Identifier} {rest space more : List Char}
    (same : name.val ++ rest = "type".toList ++ (space ++ more)) (blank : Blank space)
    (nonempty : space ≠ [])
    (ends : ∀ c ∈ rest.head?, CharacterClass.wordOrDollar c.toNat = false) :
    name.val = "type".toList ∧ rest = space ++ more := by
  refine append_inj_of_run (fun c : Char => CharacterClass.wordOrDollar c.toNat) same name.word
    (forall_mem_of_all (by decide)) ends fun c first => ?_
  rw [List.head?_append_of_ne_nil _ nonempty] at first
  exact CharacterClass.wordOrDollar_of_blank (blank c (List.mem_of_mem_head? first))

private theorem exists_spelled_both (name : Identifier) (before behind : Gap) (tail : Tail) :
    ∃ more, (Clause.both name before behind tail).spelled =
      name.val ++ (before.val ++ ',' :: more) := by
  unfold Clause.spelled Clause.outside
  simp only [List.append_assoc, List.cons_append]
  exact ⟨_, rfl⟩

section Unmarked

variable (unmarked : printed.modifier = none)
include unmarked

private theorem body_of_unmarked : printed.body = printed.clause.spelled := by
  rw [body, mark, unmarked, List.nil_append]

private theorem takenForMark_of_typed (typed : reading.typeOnly = true) :
    printed.TakenForMark := by
  obtain ⟨space, blank, nonempty, same⟩ := exists_of_typed reading typed
  rw [body_of_unmarked unmarked, List.append_assoc space] at same
  refine ⟨unmarked, ?_⟩
  cases clause : printed.clause with
  | alone name =>
    have shape : (Clause.alone name).spelled = name.val := List.append_nil _
    rw [clause, shape] at same
    obtain ⟨type, before⟩ := eq_type_of_append same blank nonempty fun c first =>
      CharacterClass.wordOrDollar_of_blank
        (printed.before.property.1 c (List.mem_of_mem_head? first))
    refine ⟨type, ?_⟩
    have first := List.length_pos_iff.mpr nonempty
    have second := List.length_pos_iff.mpr reading.spaceValid.2
    rw [before, List.length_append, List.length_append]
    omega
  | bindings tail =>
    rw [clause] at same
    cases tail with
    | whole before behind name => exact absurd (List.cons.inj same).1 (by decide)
    | named specifiers => exact absurd (List.cons.inj same).1 (by decide)
  | both name before behind tail =>
    obtain ⟨more, shape⟩ := exists_spelled_both name before behind tail
    rw [clause, shape, List.append_assoc] at same
    have comma : CharacterClass.wordOrDollar ','.toNat = false := by decide
    have dark : CharacterClass.blank ','.toNat = false := by decide
    cases gap : before.val with
    | nil =>
      rw [gap, List.nil_append, List.cons_append] at same
      obtain ⟨-, rest⟩ := eq_type_of_append same blank nonempty (by simpa using comma)
      obtain ⟨c, others, rfl⟩ := List.exists_cons_of_ne_nil nonempty
      obtain ⟨rfl, -⟩ := List.cons.inj rest
      rw [blank ',' List.mem_cons_self] at dark
      exact absurd dark.symm Bool.false_ne_true
    | cons c others =>
      have first := before.property c (by simp [gap])
      rw [gap] at same
      obtain ⟨type, -⟩ := eq_type_of_append same blank nonempty
        (by simpa using CharacterClass.wordOrDollar_of_blank first)
      exact ⟨type, by simp [gap]⟩

private theorem exists_typed_of_takenForMark (nonempty : printed.gap.val ≠ [])
    (taken : printed.TakenForMark) : ∃ reading : printed.Reading, reading.typeOnly = true := by
  obtain ⟨-, taken⟩ := taken
  have wordsEq : printed.words =
      printed.gap.val ++ printed.clause.spelled ++ printed.before.val := by
    rw [words, body_of_unmarked unmarked]
  cases clause : printed.clause with
  | alone name =>
    rw [clause] at taken
    obtain ⟨type, long⟩ := taken
    obtain ⟨c, d, more, before⟩ : ∃ c d more, printed.before.val = c :: d :: more := by
      rcases before : printed.before.val with _ | ⟨c, _ | ⟨d, more⟩⟩
      · simp [before] at long
      · simp [before] at long
      · exact ⟨c, d, more, rfl⟩
    have blank := printed.before.property.1
    rw [before] at blank
    obtain ⟨first, others⟩ := List.forall_mem_cons.mp blank
    refine ⟨⟨true, printed.gap.val, "type".toList ++ [c], [], d :: more,
      ⟨printed.gap.property, nonempty⟩, ⟨[c], rfl, by simpa [Blank] using first, by simp⟩,
      ⟨others, by simp⟩, ?_⟩, rfl⟩
    have shape : (Clause.alone name).spelled = name.val := List.append_nil _
    rw [wordsEq, clause, shape, type, before]
    simp only [List.append_assoc, List.cons_append, List.nil_append]
  | bindings tail =>
    rw [clause] at taken
    exact taken.elim
  | both name before behind tail =>
    rw [clause] at taken
    obtain ⟨type, spaced⟩ := taken
    obtain ⟨more, shape⟩ := exists_spelled_both name before behind tail
    refine ⟨⟨true, printed.gap.val, "type".toList ++ before.val, ',' :: more, printed.before.val,
      ⟨printed.gap.property, nonempty⟩, ⟨before.val, rfl, before.property, spaced⟩,
      printed.before.property, ?_⟩, rfl⟩
    rw [wordsEq, clause, shape, type]
    simp only [List.append_assoc]

end Unmarked

end Words

variable (printed : PrintedImport)

private def Reading.statement {printed : PrintedImport} (reading : printed.Reading) : Import :=
  let clause := ImportClause.ofText (encode reading.clause).trim
  { span := ⟨0, (encode printed.spelled).length⟩
    defaultName := clause.defaultName
    namespaceName := clause.namespaceName
    named := clause.named
    path := encode printed.path
    typeOnly := reading.typeOnly }

private theorem slice_clause {printed : PrintedImport} (reading : printed.Reading) :
    (encode printed.spelled).slice
      ⟨(encode ("import".toList ++ reading.gap ++ reading.mark)).length,
        (encode ("import".toList ++ reading.gap ++ reading.mark ++ reading.clause)).length⟩ =
      encode reading.clause := by
  have shape : printed.spelled = "import".toList ++ reading.gap ++ reading.mark ++ reading.clause ++
      (reading.space ++ ("from".toList ++ printed.behind.val) ++ printed.quoted) := by
    rw [reading.spelled_eq, Reading.rest]
    simp only [List.append_assoc]
  rw [shape, encode_append, encode_append (_ ++ reading.mark)]
  exact slice_append _ rfl (by rw [List.length_append])

private theorem slice_path :
    (encode printed.spelled).slice (printed.pathSpan printed.front) = encode printed.path := by
  have shape : printed.spelled = printed.front ++ [printed.quote.character] ++ printed.path ++
      [printed.quote.character] := by
    simp only [spelled, quoted, List.append_assoc, List.cons_append, List.nil_append]
  rw [shape, encode_append, encode_append (_ ++ [_])]
  refine slice_append _ rfl ?_
  rw [← List.length_append, ← encode_append, List.append_assoc]
  rfl

private theorem all_spelled (separated : printed.gap.val ≠ []) : ∃ reading : printed.Reading,
    ((∃ other : printed.Reading, other.typeOnly = true) → reading.typeOnly = true) ∧
      Import.all (encode printed.spelled) = [reading.statement] := by
  let plain : printed.Reading := ⟨false, printed.gap.val, [], printed.body, printed.before.val,
    ⟨printed.gap.property, separated⟩, rfl, printed.before.property, by rw [words, List.append_nil]⟩
  have member := printed.mem_pattern.mpr ⟨rfl, plain, rfl⟩
  obtain ⟨⟨value, next⟩, others, shape⟩ := List.exists_cons_of_ne_nil (List.ne_nil_of_mem member)
  have first : (Import.pattern (between [] printed.spelled)).head? = some (value, next) := by
    rw [shape]
    rfl
  obtain ⟨rfl, reading, rfl⟩ := printed.mem_pattern.mp (List.mem_of_mem_head? first)
  have nonempty : printed.spelled ≠ [] := by
    rw [spelled_eq]
    exact List.append_ne_nil_of_left_ne_nil (by decide) _
  have forward : (between [] printed.spelled).position < (between printed.spelled []).position := by
    rw [position_between, position_between]
    exact List.length_pos_iff.mpr (mt eq_nil_of_encode nonempty)
  have found : matchAt? Import.pattern (between [] (printed.spelled ++ [])) =
      some ⟨⟨(encode []).length, (encode ([] ++ printed.spelled)).length⟩, reading.value⟩ := by
    have here := matchAt?_of_head? first forward
    rw [position_between, position_between] at here
    rwa [List.append_nil, List.nil_append]
  have search := searchBehind_of_some found nonempty
  rw [List.append_nil, searchBehind_nil, ← search_encode] at search
  refine ⟨reading, ?_, ?_⟩
  · rintro ⟨other, typed⟩
    obtain ⟨value, preferred, read⟩ := printed.head?_pattern other typed
    rw [first] at preferred
    obtain rfl := Option.some.inj preferred
    exact read
  · rw [Import.all, search, List.map_cons, List.map_nil]
    simp only [Reading.value, slice_clause, slice_path, Reading.statement]
    rfl

private theorem all_spelled_of_nothing (nothing : printed.gap.val = []) :
    Import.all (encode printed.spelled) ≠ [printed.statement] := by
  intro same
  obtain ⟨found, member, statement⟩ := List.mem_map.mp (same ▸ List.mem_singleton_self _ :
    printed.statement ∈ Import.all (encode printed.spelled))
  obtain ⟨before, after, split, here⟩ := exists_of_mem_search member
  obtain ⟨next, matched, span, -⟩ := exists_of_matchAt? here
  have begins : found.span.start = 0 := congrArg (·.span.start) statement
  rw [span, position_between] at begins
  obtain rfl := eq_nil_of_encode (List.length_eq_zero_iff.mp begins)
  obtain rfl : printed.spelled = after := split
  obtain ⟨-, reading, -⟩ := printed.mem_pattern.mp matched
  obtain ⟨c, more, gap⟩ := List.exists_cons_of_ne_nil reading.gapValid.2
  have cut := reading.split
  rw [words, nothing, List.nil_append, gap] at cut
  have dark := dark_head?_body printed.before.val c (by rw [cut]; rfl)
  rw [reading.gapValid.1 c (by simp [gap])] at dark
  exact Bool.false_ne_true dark.symm

private theorem statement_eq_iff {printed : PrintedImport} {reading : printed.Reading}
    (trimmed : (encode reading.clause).trim = encode printed.clause.spelled)
    (same : reading.typeOnly = printed.modifier.isSome) :
    reading.statement = printed.statement ↔
      ∀ specifier ∈ printed.clause.specifiers, ¬specifier.Lost := by
  rw [← ofText_spelled_eq_iff, Reading.statement, trimmed, same]
  constructor
  · intro same
    simp only [statement, Import.mk.injEq] at same
    obtain ⟨-, default, namespaceAlias, named, -⟩ := same
    cases read : ImportClause.ofText (encode printed.clause.spelled)
    simp_all
  · intro same
    rw [same]
    rfl

/-- A printed import is read as it was printed, and nothing else is found, unless it is misread. -/
theorem all_spelled_eq_iff : Import.all (encode printed.spelled) = [printed.statement] ↔
    ¬printed.Misread := by
  by_cases nothing : printed.gap.val = []
  · exact iff_of_false (printed.all_spelled_of_nothing nothing) (not_not.mpr (.gap nothing))
  obtain ⟨reading, preferred, read⟩ := printed.all_spelled nothing
  rw [read, List.singleton_inj]
  have typedEq (same : reading.statement = printed.statement) :
      reading.typeOnly = printed.modifier.isSome := congrArg (·.typeOnly) same
  cases marked : printed.modifier with
  | none =>
    by_cases taken : printed.TakenForMark
    · have typed := preferred (exists_typed_of_takenForMark marked nothing taken)
      refine iff_of_false (fun same => ?_) (not_not.mpr (.default taken))
      rw [typedEq same, marked] at typed
      exact Bool.false_ne_true typed
    · have plain : reading.typeOnly = false :=
        Bool.not_eq_true _ ▸ mt (takenForMark_of_typed reading marked) taken
      have trimmed := trim_clause_of_plain reading plain
      rw [body_of_unmarked marked] at trimmed
      rw [statement_eq_iff trimmed (by rw [plain, marked]; rfl)]
      constructor
      · rintro kept (keepsNothing | ⟨gap, isMarked, -⟩ | isTaken | ⟨specifier, member, lost⟩)
        · exact nothing keepsNothing
        · exact Option.some_ne_none gap (isMarked.symm.trans marked)
        · exact taken isTaken
        · exact kept specifier member lost
      · exact fun kept specifier member lost => kept (.named specifier member lost)
  | some gap =>
    by_cases spaced : gap.val = []
    · have plain := not_typed_of_nothing reading marked spaced
      refine iff_of_false (fun same => ?_) (not_not.mpr (.modifier gap marked spaced))
      rw [typedEq same, marked] at plain
      exact Bool.false_ne_true plain.symm
    · have typed := preferred (exists_typed_of_modifier marked nothing spaced)
      have trimmed := trim_clause_of_typed reading marked typed
      rw [statement_eq_iff trimmed (by rw [typed, marked]; rfl)]
      constructor
      · rintro kept (keepsNothing | ⟨other, isMarked, keepsNothing⟩ | taken |
          ⟨specifier, member, lost⟩)
        · exact nothing keepsNothing
        · obtain rfl := Option.some.inj (marked.symm.trans isMarked)
          exact spaced keepsNothing
        · exact Option.some_ne_none gap (marked.symm.trans taken.1)
        · exact kept specifier member lost
      · exact fun kept specifier member lost => kept (.named specifier member lost)

/-- A line end behind the word `as` loses the export that the word renames. -/
theorem export_dropped_across_lines : ∃ printed : PrintedImport,
    encode printed.spelled = ofString "import \x7b a as\nb \x7d from 'm'" ∧
      Import.all (encode printed.spelled) ≠ [printed.statement] := by
  let space : Space := ⟨[' '], by decide⟩
  let gap : Gap := ⟨[' '], by decide⟩
  let specifier : Specifier := ⟨gap, ⟨['a'], by decide⟩,
    some (space, ⟨['\n'], by decide⟩, ⟨['b'], by decide⟩), gap⟩
  refine ⟨⟨gap, none, .bindings (.named (.last specifier)), space, space, .single, ['m'],
    by simp⟩, ?_, ?_⟩
  · decide +kernel
  · decide +kernel

end PrintedImport

end BareComponent
