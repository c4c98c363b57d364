import BareComponent.Proofs.Checked.Cut
import BareComponent.Proofs.Component.Imports
import BareComponent.Proofs.Mask.Aligned
import BareComponent.Proofs.Mask.Front

/-! # Whole characters in a compiled component

A component is compiled by cutting stretches out of its source, some of which are found in a mask,
and by putting others in their place. Every such stretch is made of whole characters, and what is
put in is a string, so a string is compiled to a string.
-/

namespace BareComponent

open Text Pattern Cursor

variable {characters : List Char} {source script text : Text}

section Blocks

private theorem ensures_scriptBlock : Ensures characters ScriptBlock.pattern fun value =>
    (encode characters).IsWhole value.1 ∧ (encode characters).IsWhole value.2 :=
  (Steps.literal (isString_ofString _)).bind fun _ => (Steps.run _).spanned.bind fun _ attributes =>
    (Steps.literal (isString_ofString _)).bind fun _ =>
      (Steps.upTo (b := Byte.less) (by decide)).spanned.bind fun _ content =>
        (Steps.literal (isString_ofString _)).bind fun _ => .pure ⟨attributes, content⟩

/-- What stands in a script block is a string. -/
theorem isString_of_mem_scriptBlocks (string : IsString source) {block : ScriptBlock}
    (member : block ∈ ScriptBlock.all source) : IsString block.content := by
  obtain ⟨characters, rfl⟩ := string
  obtain ⟨found, inside, rfl⟩ := List.mem_map.mp member
  obtain ⟨⟨-, content⟩, -⟩ := ensures_scriptBlock.search inside
  exact (content.isString ⟨characters, rfl⟩).trim

/-- The attributes of a script block are a string. -/
theorem isString_attributes_of_mem_scriptBlocks (string : IsString source) {block : ScriptBlock}
    (member : block ∈ ScriptBlock.all source) : IsString block.attributes := by
  obtain ⟨characters, rfl⟩ := string
  obtain ⟨found, inside, rfl⟩ := List.mem_map.mp member
  obtain ⟨⟨attributes, -⟩, -⟩ := ensures_scriptBlock.search inside
  exact attributes.isString ⟨characters, rfl⟩

/-- What stands in the template is a string. -/
theorem isString_template (string : IsString source) {template : Text}
    (given : Blocks.template? source = some template) : IsString template := by
  simp only [Blocks.template?, Option.bind_eq_bind, Option.bind_eq_some_iff] at given
  obtain ⟨start, -, tag, closes, stop, closing, cut⟩ := given
  split at cut
  · next ordered =>
    obtain rfl := Option.some.inj cut
    have greater : source[start + tag]? = some Byte.greater := by
      rw [← List.getElem?_drop]
      exact getElem?_of_indexOf? closes
    have less : source[stop]? = some Byte.less := getElem?_of_lastIndexOf? closing
    have starts := (isBoundary_of_ascii string greater (by decide)).2
    have stops := (isBoundary_of_ascii string less (by decide)).1
    exact ((starts.isWhole stops ordered.le).isString string).trim
  · contradiction

end Blocks

section Clauses

/-- Whether a clause binds identifiers only. -/
structure ImportClause.Named (clause : ImportClause) : Prop where
  default : ∀ name ∈ clause.defaultName, name.isIdentifier = true
  namespaceAlias : ∀ name ∈ clause.namespaceName, name.isIdentifier = true
  exports : ∀ entry ∈ clause.named, entry.1.isIdentifier = true ∧ entry.2.isIdentifier = true

private theorem ImportClause.Named.addOutside {clause : ImportClause} (named : clause.Named)
    (part : Text) : (clause.addOutside part).Named := by
  unfold ImportClause.addOutside
  split
  · dsimp only
    split
    · next identifier => exact ⟨named.default, by simpa using identifier, named.exports⟩
    · exact named
  · split
    · next identifier => exact ⟨by simpa using identifier, named.namespaceAlias, named.exports⟩
    · exact named

private theorem named_of_specifier? {part : Text} {entry : Text × Text}
    (read : ImportClause.specifier? part = some entry) :
    entry.1.isIdentifier = true ∧ entry.2.isIdentifier = true := by
  have checked {imported bound : Text}
      (read : (if imported.isIdentifier && bound.isIdentifier then some (imported, bound)
        else none) = some entry) : entry.1.isIdentifier = true ∧ entry.2.isIdentifier = true := by
    split at read
    · next identifiers =>
      obtain rfl := Option.some.inj read
      exact Bool.and_eq_true_iff.mp identifiers
    · contradiction
  unfold ImportClause.specifier? at read
  dsimp only at read
  split at read <;> exact checked read

/-- What is read from a clause are identifiers. -/
theorem ImportClause.named_ofText (text : Text) : (ImportClause.ofText text).Named := by
  have outside : ∀ (parts : List Text) (clause : ImportClause), clause.Named →
      (parts.foldl ImportClause.addOutside clause).Named := by
    intro parts
    induction parts with
    | nil => exact fun _ named => named
    | cons part parts ih => exact fun clause named => ih _ (named.addOutside part)
  have clause := outside ((splitBraces text).1.splitOn Byte.comma) ⟨none, none, []⟩
    ⟨by simp, by simp, by simp⟩
  refine ⟨clause.default, clause.namespaceAlias, fun entry member => ?_⟩
  unfold ImportClause.ofText at member
  dsimp only at member
  split at member
  · obtain ⟨part, -, read⟩ := List.mem_filterMap.mp member
    exact named_of_specifier? read
  · simp at member

end Clauses

section Imports

/-- Whether an import binds identifiers only and its path is a string. -/
structure Import.Spelled (statement : Import) : Prop where
  default : ∀ name ∈ statement.defaultName, name.isIdentifier = true
  namespaceAlias : ∀ name ∈ statement.namespaceName, name.isIdentifier = true
  exports : ∀ entry ∈ statement.named, entry.1.isIdentifier = true ∧ entry.2.isIdentifier = true
  path : IsString statement.path

/-- The mark of an import of types takes whole characters. -/
theorem Import.steps_mark : Steps characters (do
    Pattern.literal "type"
    Pattern.many1 .blank) :=
  (Steps.literal (isString_ofString _)).bind fun _ => Steps.many1 _

/-- The clause of an import takes whole characters, through its `from`. -/
theorem Import.steps_clause : Steps characters (do
    let clause ← Pattern.spanned (Pattern.fewest (.noneOf "'\""))
    Pattern.blanks1
    Pattern.literal "from"
    Pattern.blanks1
    pure clause) :=
  (Steps.fewest _).spanned.bind fun _ _ => (Steps.run1 _).bind fun _ =>
    (Steps.literal (isString_ofString _)).bind fun _ => (Steps.run1 _).bind fun _ => .pure trivial

private theorem ensures_import : Ensures characters Import.pattern fun value =>
    (encode characters).IsWhole value.2.2 :=
  (Steps.check _).bind fun _ => (Steps.run _).bind fun _ =>
    (Steps.literal (isString_ofString _)).bind fun _ => (Steps.many1 _).bind fun _ =>
      Import.steps_mark.optional.bind fun _ => Import.steps_clause.optional.bind fun _ =>
        (Steps.character _).bind fun _ => (Steps.run1 _).spanned.bind fun _ path =>
          (Steps.character _).bind fun _ => (Steps.run _).bind fun _ =>
            (Steps.literal (isString_ofString _)).optional.bind fun _ =>
            .pure path

/-- The imports of a string bind identifiers, and their paths are strings. -/
theorem Import.spelled_of_mem_all (string : IsString script) {statement : Import}
    (member : statement ∈ Import.all script) : statement.Spelled := by
  obtain ⟨characters, rfl⟩ := string
  obtain ⟨found, inside, rfl⟩ := List.mem_map.mp member
  obtain ⟨path, -⟩ := ensures_import.search inside
  have named := ImportClause.named_ofText
  exact ⟨(named _).default, (named _).namespaceAlias, (named _).exports,
    path.isString ⟨characters, rfl⟩⟩

/-- An import takes whole characters, and at least one. -/
theorem Import.isWhole_of_mem_all (string : IsString script) {statement : Import}
    (member : statement ∈ Import.all script) :
    script.IsWhole statement.span ∧ statement.span.start < statement.span.stop := by
  obtain ⟨characters, rfl⟩ := string
  obtain ⟨found, inside, rfl⟩ := List.mem_map.mp member
  exact (ensures_import.search inside).2

/-- An import begins a line. -/
theorem Import.exists_line_of_mem_all {statement : Import}
    (member : statement ∈ Import.all (encode characters)) :
    ∃ before after, characters = before ++ after ∧
      statement.span.start = (encode before).length ∧ ∀ c ∈ before.getLast?, c = '\n' := by
  obtain ⟨found, inside, rfl⟩ := List.mem_map.mp member
  obtain ⟨before, after, rfl, here⟩ := exists_of_mem_search inside
  obtain ⟨next, matched, span, -⟩ := exists_of_matchAt? here
  obtain ⟨_, _, starts, -⟩ := mem_bind.mp matched
  obtain ⟨line, -⟩ := mem_lineStart.mp starts
  refine ⟨before, after, rfl, ?_, line⟩
  rw [span, position_between]

/-- The imports of a script follow one another and do not overlap. -/
theorem Import.pairwise_all (string : IsString script) :
    (Import.all script).Pairwise (·.span.stop ≤ ·.span.start) := by
  obtain ⟨characters, rfl⟩ := string
  exact List.pairwise_map.mpr ensures_import.steps.pairwise_search

end Imports

namespace ComponentScript

section Requires

private theorem isString_of_name {name : Text} (named : name.isIdentifier = true) :
    IsString name := isString_of_inTarget (inTarget_of_name named)

private theorem isString_temporary (count : Nat) : IsString (temporary count) :=
  isString_of_inTarget (inTarget_temporary count)

/-- The statements that stand for an import are a string. -/
theorem isString_requireStatements (count : Nat) {statement : Import}
    (spelled : statement.Spelled) : IsString (requireStatements count statement).1 := by
  have call := isString_requireCall spelled.path
  have binds {name : Text} (named : name.isIdentifier = true) :
      IsString (constant name (requireCall statement.path)) :=
    isString_constant (isString_of_name named) call
  unfold requireStatements
  dsimp only
  split
  · exact ⟨[], rfl⟩
  split
  · exact call.append ⟨[';'], rfl⟩
  split
  · next name given _ _ => exact binds (spelled.default name (by simp [given]))
  · next name _ given _ => exact binds (spelled.namespaceAlias name (by simp [given]))
  · refine isString_join isString_newline fun line member => ?_
    rcases List.mem_append.mp member with member | member
    · rcases List.mem_append.mp member with member | member
      · rw [List.mem_singleton.mp member]
        exact isString_constant (isString_temporary count) call
      · obtain ⟨name, found, rfl⟩ := List.mem_map.mp member
        refine isString_constant (isString_of_name ?_) (isString_temporary count)
        rcases List.mem_append.mp found with default | namespaceAlias
        · exact spelled.default name (by simpa using default)
        · exact spelled.namespaceAlias name (by simpa using namespaceAlias)
    · split at member
      · simp at member
      · rw [List.mem_singleton.mp member]
        exact isString_constant (isString_of_inTarget (inTarget_exportsPattern spelled.exports))
          (isString_temporary count)

private theorem requireEdits_spans (count : Nat) (imports : List Import) :
    (requireEdits count imports).1.map Prod.fst = imports.map (·.span) := by
  induction imports generalizing count with
  | nil => rfl
  | cons statement rest ih => exact congrArg (statement.span :: ·) (ih _)

/-- Each edit puts in place of an import what is generated for it. -/
theorem exists_of_mem_requireEdits {count : Nat} {imports : List Import} {edit : Span × Text}
    (member : edit ∈ (requireEdits count imports).1) : ∃ statement ∈ imports, ∃ before,
      edit = (statement.span, (requireStatements before statement).1) := by
  induction imports generalizing count with
  | nil => exact absurd member List.not_mem_nil
  | cons statement imports ih =>
    rcases List.mem_cons.mp member with rfl | later
    · exact ⟨statement, List.mem_cons_self, count, rfl⟩
    · obtain ⟨other, found, before, same⟩ := ih later
      exact ⟨other, List.mem_cons_of_mem _ found, before, same⟩

/-- Imports are replaced from left to right. -/
theorem rising_requireEdits (count : Nat) (string : IsString script) :
    (requireEdits count (Import.all script)).1.Pairwise (·.1.stop ≤ ·.1.start) := by
  have apart : ((Import.all script).map (·.span)).Pairwise (·.stop ≤ ·.start) :=
    List.pairwise_map.mpr (Import.pairwise_all string)
  rw [← requireEdits_spans count] at apart
  exact List.pairwise_map.mp apart

/-- Putting require statements in place of imports leaves a string. -/
theorem isString_requireImports (count : Nat) (string : IsString script) :
    IsString (requireImports count script).1 := by
  refine Checked.isString_replaceFrom string (isBoundary_zero _) (fun edit member => ?_)
    (rising_requireEdits count string)
  obtain ⟨statement, found, before, rfl⟩ := exists_of_mem_requireEdits member
  exact ⟨Nat.zero_le _, (Import.isWhole_of_mem_all string found).1,
    isString_requireStatements before (Import.spelled_of_mem_all string found)⟩

end Requires

section Exports

/-- What is read behind the keyword of an exported declaration. -/
def declaration (keyword : Span) : Pattern Span := do
  let _ ← Pattern.optional do
    Pattern.literal "async"
    Pattern.blanks1
  Pattern.oneOf ["const", "let", "var", "function", "class"]
  Pattern.wordBoundary
  pure keyword

/-- The keyword of an exported declaration begins a line behind its indent. -/
theorem exists_keyword {before after : List Char} {span : Span} {next : Cursor}
    (member : (span, next) ∈ namedExport (between before after)) :
    ∃ lead gap tail keyword, after = lead ++ ("export".toList ++ gap) ++ tail ∧
      (∀ c ∈ before.getLast?, c = '\n') ∧ (∀ c ∈ lead, c ∈ [' ', '\t']) ∧
      Blank gap ∧ gap ≠ [] ∧
      keyword = ⟨(encode (before ++ lead)).length,
        (encode (before ++ lead ++ ("export".toList ++ gap))).length⟩ ∧
      (span, next) ∈
        declaration keyword (between (before ++ lead ++ ("export".toList ++ gap)) tail) := by
  obtain ⟨_, _, starts, others⟩ := mem_bind.mp member
  obtain ⟨line, rfl⟩ := mem_lineStart.mp starts
  obtain ⟨_, _, blanks, others⟩ := mem_bind.mp others
  obtain ⟨lead, more, rfl, led, -, rfl⟩ := mem_run.mp blanks
  obtain ⟨found, _, exported, others⟩ := mem_bind.mp others
  obtain ⟨here, rfl⟩ := mem_spanned.mp exported
  obtain ⟨_, _, keyword, gaps⟩ := mem_bind.mp here
  obtain ⟨_, rfl, rfl⟩ :=
    mem_literal.mp (keyword : _ ∈ Pattern.literal (encode "export".toList) _)
  obtain ⟨gap, tail, rfl, nonempty, blank, -, rfl⟩ := mem_run1.mp gaps
  rw [List.append_assoc _ _ gap] at others
  refine ⟨lead, gap, tail, _, by simp only [List.append_assoc], line, fun c inside => ?_, blank,
    nonempty, ?_, others⟩
  · exact (CharacterClass.oneOf_encode (forall_mem_of_all (by decide)) c).mp (led c inside)
  · rw [position_between, position_between]

/-- Where a named export stands: at the beginning of a line, with blanks in front of its keyword
and a declaration behind the blanks that follow. -/
theorem exists_namedExport {before after : List Char} {span : Span} {next : Cursor}
    (member : (span, next) ∈ namedExport (between before after)) :
    ∃ lead gap behind rest, after = lead ++ ("export".toList ++ gap) ++ behind ++ rest ∧
      (∀ c ∈ before.getLast?, c = '\n') ∧ (∀ c ∈ lead, c ∈ [' ', '\t']) ∧
      Blank gap ∧ gap ≠ [] ∧
      span = ⟨(encode (before ++ lead)).length,
        (encode (before ++ lead ++ ("export".toList ++ gap))).length⟩ ∧
      next = between (before ++ lead ++ ("export".toList ++ gap) ++ behind) rest := by
  have async : Steps (before ++ after) (do
      Pattern.literal "async"
      Pattern.blanks1) :=
    (Steps.literal (isString_ofString _)).bind fun _ => Steps.run1 _
  have declared (found : Span) : Ensures (before ++ after) (declaration found) (· = found) :=
    async.optional.bind fun _ => (Steps.oneOf (by simp [isString_ofString])).bind fun _ =>
      (Steps.check _).bind fun _ => .pure rfl
  obtain ⟨lead, gap, tail, keyword, rfl, line, led, blank, nonempty, place, others⟩ :=
    exists_keyword member
  obtain ⟨rfl, behind, rest, rfl, rfl⟩ := declared _
    (before ++ lead ++ ("export".toList ++ gap)) tail (by simp only [List.append_assoc]) _ _ others
  exact ⟨lead, gap, behind, rest, by simp only [List.append_assoc], line, led, blank, nonempty,
    place, rfl⟩

private theorem inside_of_namedExport {found : Match Span}
    (member : found ∈ namedExport.search (encode characters)) :
    (encode characters).IsWhole found.value ∧ found.span.start ≤ found.value.start ∧
      found.value.stop ≤ found.span.stop := by
  obtain ⟨before, after, rfl, here⟩ := exists_of_mem_search member
  obtain ⟨next, matched, span, -⟩ := exists_of_matchAt? here
  obtain ⟨lead, gap, behind, rest, rfl, -, -, -, -, value, rfl⟩ := exists_namedExport matched
  generalize "export".toList ++ gap = word at value span
  have starts := isBoundary_encode (before ++ lead) (word ++ behind ++ rest)
  have stops := isBoundary_encode (before ++ lead ++ word) (behind ++ rest)
  have shape : before ++ (lead ++ word ++ behind ++ rest) =
      before ++ lead ++ (word ++ behind ++ rest) := by simp
  have otherShape : before ++ (lead ++ word ++ behind ++ rest) =
      before ++ lead ++ word ++ (behind ++ rest) := by simp
  rw [← shape] at starts
  rw [← otherShape] at stops
  rw [span, value]
  exact ⟨starts.isWhole stops (by simp), by simp, by simp⟩

/-- Exported declarations become plain ones from left to right, each by a cut between characters. -/
theorem rising_namedExport (string : IsString script) :
    ((namedExport.search script).map (·.value)).Pairwise (·.stop ≤ ·.start) ∧
      ∀ found ∈ namedExport.search script, script.IsWhole found.value := by
  obtain ⟨characters, rfl⟩ := string
  have inside {found : Match Span} := @inside_of_namedExport characters found
  have steps : Steps characters namedExport := by
    intro before after whole value next member
    obtain ⟨lead, gap, behind, rest, rfl, -, -, -, -, -, rfl⟩ := exists_namedExport member
    generalize "export".toList ++ gap = word
    exact ⟨trivial, lead ++ word ++ behind, rest, rfl, by simp⟩
  refine ⟨List.pairwise_map.mpr ?_, fun found member => (inside member).1⟩
  refine steps.pairwise_search.imp_of_mem fun {first second} earlier later apart => ?_
  exact (inside earlier).2.2.trans (apart.trans (inside later).2.1)

/-- Where exported declarations become plain ones, a string is left. -/
theorem isString_dropNamedExports (string : IsString script) :
    IsString (dropNamedExports script) := by
  obtain ⟨rising, whole⟩ := rising_namedExport string
  refine Checked.isString_replaceFrom string (isBoundary_zero _) (fun edit member => ?_)
    (List.pairwise_map.mpr (List.pairwise_map.mp rising))
  obtain ⟨found, searched, rfl⟩ := List.mem_map.mp member
  exact ⟨Nat.zero_le _, whole found searched, [], rfl⟩

/-- The search for a default export takes whole words and all the white space behind them. -/
theorem mem_defaultExport {before after : List Char} {next : Cursor} :
    ((), next) ∈ defaultExport (between before after) ↔
      isWord before.getLast? = false ∧ ∃ gap more rest,
        after = "export".toList ++ (gap ++ ("default".toList ++ (more ++ rest))) ∧ gap ≠ [] ∧
        Blank gap ∧ more ≠ [] ∧ Blank more ∧
        (∀ c ∈ rest.head?, CharacterClass.blank c.toNat = false) ∧
        next =
          between (before ++ ("export".toList ++ (gap ++ ("default".toList ++ more)))) rest := by
  have exportEq : ("export" : Text) = encode "export".toList := ofString_eq _
  have defaultEq : ("default" : Text) = encode "default".toList := ofString_eq _
  simp only [defaultExport, mem_bind, mem_wordBoundary, exportEq, defaultEq]
  constructor
  · rintro ⟨_, _, ⟨edge, rfl⟩, _, _, exported, _, _, gaps, _, _, defaultRead, last⟩
    obtain ⟨_, rfl, rfl⟩ := mem_literal.mp exported
    obtain ⟨gap, _, rfl, nonempty, blank, -, rfl⟩ := mem_run1.mp gaps
    obtain ⟨_, rfl, rfl⟩ := mem_literal.mp defaultRead
    obtain ⟨more, rest, rfl, moreSome, others, dark, rfl⟩ := mem_run1.mp last
    refine ⟨?_, gap, more, rest, rfl, nonempty, blank, moreSome, others, dark,
      by simp only [List.append_assoc]⟩
    have first (rest : List Char) : isWord ("export".toList ++ rest).head? = true := rfl
    rw [first] at edge
    simpa using edge
  · rintro ⟨edge, gap, more, rest, rfl, nonempty, blank, moreSome, others, dark, rfl⟩
    refine ⟨(), _, ⟨?_, rfl⟩, (), _, mem_literal.mpr ⟨_, rfl, rfl⟩, (), _,
      mem_run1.mpr ⟨gap, _, rfl, nonempty, blank, ?_, rfl⟩, (), _, mem_literal.mpr ⟨_, rfl, rfl⟩,
      mem_run1.mpr ⟨more, rest, rfl, moreSome, others, dark, by simp only [List.append_assoc]⟩⟩
    · rw [edge]
      exact Bool.false_ne_true
    · rintro c ⟨⟩
      decide

/-- The words of a default export as they stand in the mask of a string. -/
theorem exists_of_find?_defaultExport (string : IsString script) {found : Match Unit}
    (present : defaultExport.find? script.mask = some found) :
    ∃ before gap more rest,
      script.mask = encode (before ++ ("export".toList ++ gap ++ ("default".toList ++ more)) ++
        rest) ∧
      found.span = ⟨(encode before).length,
        (encode (before ++ ("export".toList ++ gap ++ ("default".toList ++ more)))).length⟩ ∧
      Blank gap ∧ Blank more ∧ ∀ c ∈ rest.head?, CharacterClass.blank c.toNat = false := by
  obtain ⟨shown, masked⟩ := string.aligned.maskIsString
  rw [masked] at present
  obtain ⟨before, after, rfl, here⟩ := exists_of_mem_search (List.mem_of_head? present)
  obtain ⟨next, matched, span, -⟩ := exists_of_matchAt? here
  obtain ⟨-, gap, more, rest, rfl, -, blank, -, others, dark, rfl⟩ := mem_defaultExport.mp matched
  rw [position_between, position_between] at span
  exact ⟨before, gap, more, rest, by simpa only [List.append_assoc] using masked,
    by simpa only [List.append_assoc] using span, blank, others, dark⟩

/-- Where a default export is found in the mask of a string, the string can be cut. -/
theorem isWhole_of_find? (string : IsString script) {found : Match Unit}
    (present : defaultExport.find? script.mask = some found) : script.IsWhole found.span := by
  obtain ⟨before, gap, more, rest, masked, span, -, -, dark⟩ :=
    exists_of_find?_defaultExport string present
  obtain ⟨characters, rfl⟩ := string
  obtain ⟨letters, shape⟩ : ∃ letters,
      "export".toList ++ gap ++ ("default".toList ++ more) = 'e' :: letters := ⟨_, rfl⟩
  rw [shape] at masked span
  have starts : (encode characters).IsBoundary (encode before).length := by
    rw [List.append_assoc, List.cons_append] at masked
    exact isBoundary_of_shown masked (by decide)
  have stops : (encode characters).IsBoundary (encode (before ++ 'e' :: letters)).length := by
    cases rest with
    | nil =>
      have length := congrArg List.length masked
      rw [mask_length, List.append_nil] at length
      exact length ▸ isBoundary_length _
    | cons c rest =>
      refine isBoundary_of_shown masked ⟨?_, ?_⟩
      all_goals
        rintro rfl
        exact absurd (dark _ rfl) (by decide)
  rw [span]
  exact starts.isWhole stops (by simp)

/-- Where the default export is stored as the options, a string is left. -/
theorem isString_storeDefaultExport (string : IsString script) {stored : Text}
    (present : storeDefaultExport? script = some stored) : IsString stored := by
  obtain ⟨found, here, rfl⟩ := Option.map_eq_some_iff.mp present
  have options : IsString (constant optionsName []) :=
    isString_constant (isString_ofString _) ⟨[], rfl⟩
  refine Checked.isString_replaceFrom string (isBoundary_zero _) (fun edit member => ?_)
    (List.pairwise_singleton _ _)
  rw [List.mem_singleton.mp member]
  exact ⟨Nat.zero_le _, isWhole_of_find? string here, options⟩

end Exports

section Parts

/-- The part that declares the options is a string of whole lines. -/
theorem isString_optionsPart {plain : Option Text} (string : ∀ script ∈ plain, IsString script) :
    IsString (optionsPart plain).1 ∧ IsLines (optionsPart plain).1 := by
  have empty : IsString emptyOptions ∧ IsLines emptyOptions :=
    ⟨isString_constant (isString_ofString _) (isString_ofString _),
      isLines_append_newline (constant optionsName "\x7b\x7d")⟩
  cases plain with
  | none => exact empty
  | some script =>
    have body : IsString (dropNamedExports (requireImports 0 script).1) :=
      isString_dropNamedExports (isString_requireImports 0 (string script rfl))
    unfold optionsPart
    dsimp only
    split
    · next stored present =>
      exact ⟨(isString_storeDefaultExport body present).append isString_newline,
        isLines_append_newline _⟩
    · exact ⟨(body.append isString_newline).append empty.1,
        (isLines_append_newline _).append empty.2⟩

private theorem isString_exposedObject (body : Text) :
    IsString (exposedObject (Declaration.names body)) := by
  have names : ∀ name ∈ Declaration.names body, IsString name := by
    intro name member
    have kept := List.mem_filter.mp (List.mem_eraseDups.mp member)
    exact isString_of_name (Bool.and_eq_true_iff.mp kept.2).1
  exact ((isString_ofString _).append (isString_join (isString_ofString _) names)).append
    (isString_ofString _)

/-- The part that stores the function of a script is a string of whole lines. -/
theorem isString_setupPart (count : Nat) {setup : Option Text}
    (string : ∀ script ∈ setup, IsString script) :
    IsString (setupPart count setup) ∧ IsLines (setupPart count setup) := by
  cases setup with
  | none => exact ⟨⟨[], rfl⟩, .nil⟩
  | some script =>
    have body := isString_requireImports count (string script rfl)
    have opening := (isString_ofString "__component__").append
      (isString_ofString ".setup = function setup() \x7b\n")
    have closing := isString_ofString "\n\x7d\n"
    refine ⟨(((((opening.append body).append isString_newline).append
      (isString_ofString "return ")).append (isString_exposedObject _)).append closing), ?_⟩
    have ending : ofString "\n\x7d\n" = ofString "\n\x7d" ++ [Byte.newline] := rfl
    rw [setupPart, ending, ← List.append_assoc]
    exact isLines_append_newline _

end Parts

/-- What a compiled script has in front of the template: the options and the function of the
scripts. -/
def front (blocks : Blocks) : Text :=
  (optionsPart blocks.script).1 ++ setupPart (optionsPart blocks.script).2 blocks.setup

/-- The scripts of a string are strings. -/
theorem isString_scripts (string : IsString source) :
    (∀ script ∈ (Blocks.ofSource source).script, IsString script) ∧
      ∀ script ∈ (Blocks.ofSource source).setup, IsString script := by
  have content {chosen : ScriptBlock → Bool} :
      ∀ script ∈ ((ScriptBlock.all source).find? chosen).map (·.content), IsString script := by
    intro script found
    obtain ⟨block, here, rfl⟩ := Option.map_eq_some_iff.mp found
    exact isString_of_mem_scriptBlocks string (List.mem_of_find?_eq_some here)
  exact ⟨content, content⟩

/-- In front of the template stand whole lines of a string. -/
theorem isString_front (string : IsString source) :
    IsString (front (Blocks.ofSource source)) ∧ IsLines (front (Blocks.ofSource source)) := by
  obtain ⟨plain, inside⟩ := isString_scripts string
  obtain ⟨options, whole⟩ := isString_optionsPart plain
  obtain ⟨setup, others⟩ :=
    isString_setupPart (optionsPart (Blocks.ofSource source).script).2 inside
  exact ⟨options.append setup, whole.append others⟩

end ComponentScript

end BareComponent
