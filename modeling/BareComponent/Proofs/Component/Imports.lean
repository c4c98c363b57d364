import BareComponent.Proofs.Component.ImportLine
import BareComponent.Proofs.Text.Pieces

/-! # Imports come back as require sites

The statements that stand for some imports are read again when a script is resolved: the search for
require sites finds each module with the name that is bound to it, and stripping keeps the lines
that take names out of a temporary.
-/

namespace BareComponent

/-- Whether an import is one of values, in names and with a path that need no quoting. -/
structure Import.Plain (statement : Import) : Prop where
  values : statement.typeOnly = false
  pathPlain : ComponentScript.PlainPath statement.path
  defaultNamed : ∀ name ∈ statement.defaultName, name.isIdentifier = true
  namespaceNamed : ∀ name ∈ statement.namespaceName, name.isIdentifier = true
  exportsNamed : ∀ entry ∈ statement.named,
    entry.1.isIdentifier = true ∧ entry.2.isIdentifier = true

namespace ComponentScript

open Text Scanner

/-- The statements that stand for some imports, one below the other. -/
def requireText (count : Nat) (imports : List Import) : Text :=
  join [Byte.newline] ((requireEdits count imports).1.map Prod.snd)

/-- The name that an import binds to the module itself, if it binds no other. -/
def soleName? (statement : Import) : Option Text :=
  match statement.defaultName, statement.namespaceName, statement.named with
  | some name, none, [] => some name
  | none, some name, [] => some name
  | _, _, _ => none

/-- The names that some imports bind to modules, with the paths of these. An import that binds
nothing has none, and one that takes more than one name binds the next temporary. -/
def boundModules (count : Nat) : List Import → List (Text × Text)
  | [] => []
  | statement :: imports =>
    if statement.bindsNothing then boundModules count imports
    else
      match soleName? statement with
      | some name => (name, statement.path) :: boundModules count imports
      | none => (temporary count, statement.path) :: boundModules (count + 1) imports

/-- The imports that bind temporaries, each behind the count of its temporary. -/
def temporaries (count : Nat) : List Import → List (Nat × Import)
  | [] => []
  | statement :: imports =>
    if statement.bindsNothing ∨ (soleName? statement).isSome then temporaries count imports
    else (count, statement) :: temporaries (count + 1) imports

/-- What an import takes out of its temporary: the default, the module itself, and the pattern of
its named exports. -/
def targets (statement : Import) : List Text :=
  statement.defaultName.toList ++ statement.namespaceName.toList ++
    if statement.named.isEmpty then [] else [exportsPattern statement.named]

/-- Whether a line takes what one of some imports names out of the temporary of this import. -/
def ReadsTemporary (count : Nat) (imports : List Import) (line : Text) : Prop :=
  ∃ entry ∈ temporaries count imports, ∃ target ∈ targets entry.2, ∃ ending,
    (ending = [] ∨ ending = [Byte.newline]) ∧ line = constant target (temporary entry.1) ++ ending

section Lines

/-- The lines that stand for an import. -/
def linesOf (count : Nat) (statement : Import) : List ImportLine :=
  if statement.bindsNothing then [.runs statement.path]
  else
    match soleName? statement with
    | some name => [.binds name statement.path]
    | none => .binds (temporary count) statement.path :: (targets statement).map (.reads · count)

/-- The count of temporaries behind an import. -/
def countAfter (count : Nat) (statement : Import) : Nat :=
  if statement.bindsNothing ∨ (soleName? statement).isSome then count else count + 1

def allLines (count : Nat) : List Import → List ImportLine
  | [] => []
  | statement :: imports =>
    linesOf count statement ++ allLines (countAfter count statement) imports

/-- The statements that stand for an import of values are lines. -/
theorem requireStatements_eq {statement : Import} (values : statement.typeOnly = false)
    (count : Nat) : requireStatements count statement =
      (join [Byte.newline] ((linesOf count statement).map ImportLine.text),
        countAfter count statement) := by
  unfold requireStatements linesOf countAfter
  cases bound : statement.bindsNothing with
  | true => simp [values, join, ImportLine.text]
  | false =>
    obtain ⟨span, defaultName, namespaceName, named, path, typeOnly⟩ := statement
    rcases defaultName with _ | first <;> rcases namespaceName with _ | second <;>
      rcases named with _ | ⟨entry, named⟩ <;>
      simp_all [soleName?, targets, Import.bindsNothing, ImportLine.text, join]

/-- An import that binds something takes something out of its temporary, if it has one. -/
theorem targets_ne_nil {statement : Import} (binds : statement.bindsNothing = false) :
    targets statement ≠ [] := by
  intro nothing
  obtain ⟨names, exports⟩ := List.append_eq_nil_iff.mp nothing
  obtain ⟨default, space⟩ := List.append_eq_nil_iff.mp names
  rw [Option.toList_eq_nil_iff] at default space
  simp_all [Import.bindsNothing]

/-- Every import becomes at least one line. -/
theorem linesOf_ne_nil (count : Nat) (statement : Import) :
    linesOf count statement ≠ [] := by
  unfold linesOf
  split
  · simp
  · split <;> simp

private theorem allLines_ne_nil (count : Nat) {imports : List Import} (nonempty : imports ≠ []) :
    allLines count imports ≠ [] := by
  obtain ⟨statement, imports, rfl⟩ := List.exists_cons_of_ne_nil nonempty
  simp [allLines, linesOf_ne_nil]

/-- The statements that stand for some imports are lines. -/
theorem requireText_eq {count : Nat} {imports : List Import}
    (values : ∀ statement ∈ imports, statement.typeOnly = false) :
    requireText count imports =
      join [Byte.newline] ((allLines count imports).map ImportLine.text) := by
  induction imports generalizing count with
  | nil => rfl
  | cons statement imports ih =>
    obtain ⟨first, others⟩ := List.forall_mem_cons.mp values
    have rest := @ih (countAfter count statement) others
    have edits : ((requireEdits count (statement :: imports)).1.map Prod.snd) =
        join [Byte.newline] ((linesOf count statement).map ImportLine.text) ::
          (requireEdits (countAfter count statement) imports).1.map Prod.snd := by
      simp [requireEdits, requireStatements_eq first]
    rw [requireText, edits, allLines, List.map_append]
    cases imports with
    | nil => simp [requireEdits, allLines, join]
    | cons next imports =>
      rw [join_append (by simp [linesOf_ne_nil])
        (by simpa using allLines_ne_nil _ (List.cons_ne_nil next imports)), ← rest]
      rfl

/-- The name that a line binds to a module, and the path of the module. -/
def ImportLine.module? : ImportLine → Option (Text × Text)
  | binds name path => some (name, path)
  | runs _ | reads _ _ => none

/-- The lines that stand for some imports bind the names of the imports. -/
theorem filterMap_module?_allLines (count : Nat) (imports : List Import) :
    (allLines count imports).filterMap ImportLine.module? = boundModules count imports := by
  induction imports generalizing count with
  | nil => rfl
  | cons statement imports ih =>
    rw [allLines, List.filterMap_append, ih, boundModules, linesOf, countAfter]
    cases statement.bindsNothing with
    | true => simp [ImportLine.module?]
    | false =>
      cases soleName? statement with
      | some name => simp [ImportLine.module?]
      | none =>
        have reads : ImportLine.module? ∘ (ImportLine.reads · count) = fun _ => none := rfl
        simp [ImportLine.module?, List.filterMap_map, reads]

private theorem isIdentifier_temporary (count : Nat) : (temporary count).isIdentifier = true := by
  have digits : (ofNat count).all Byte.continuesIdentifier = true := by
    rw [List.all_eq_true]
    intro b member
    simp [Byte.continuesIdentifier, isDigit_of_mem_ofNat member]
  have stem : (ofString "_import_").all Byte.continuesIdentifier = true := by decide
  have shape : temporary count = Byte.underscore :: (ofString "_import_" ++ ofNat count) := rfl
  have starts : Byte.startsIdentifier Byte.underscore = true := by decide
  rw [shape, isIdentifier, starts, List.all_append, stem, digits]
  rfl

theorem inTarget_exportsPattern {named : List (Text × Text)}
    (names : ∀ entry ∈ named, entry.1.isIdentifier = true ∧ entry.2.isIdentifier = true) :
    ∀ b ∈ exportsPattern named, inTarget b = true := by
  have opening : ∀ b ∈ ofString "\x7b ", inTarget b = true := forall_mem_of_all (by decide)
  have closing : ∀ b ∈ ofString " \x7d", inTarget b = true := forall_mem_of_all (by decide)
  have separator : ∀ b ∈ ofString ", ", inTarget b = true := forall_mem_of_all (by decide)
  have colon : ∀ b ∈ ofString ": ", inTarget b = true := forall_mem_of_all (by decide)
  simp only [exportsPattern, List.mem_append]
  rintro b ((member | member) | member)
  · exact opening b member
  · rcases mem_join member with member | ⟨_, found, inside⟩
    · exact separator b member
    obtain ⟨⟨imported, bound⟩, entry, rfl⟩ := List.mem_map.mp found
    obtain ⟨first, second⟩ := names _ entry
    split at inside
    · exact inTarget_of_name first b inside
    · rcases List.mem_append.mp inside with inside | inside
      · rcases List.mem_append.mp inside with inside | inside
        · exact inTarget_of_name first b inside
        · exact colon b inside
      · exact inTarget_of_name second b inside
  · exact closing b member

/-- A line that reads a temporary takes a target of the import that binds the temporary. -/
theorem exists_of_reads_mem_allLines {count number : Nat} {imports : List Import} {target : Text}
    (member : .reads target number ∈ allLines count imports) :
    ∃ statement, (number, statement) ∈ temporaries count imports ∧ target ∈ targets statement := by
  induction imports generalizing count with
  | nil => exact absurd member List.not_mem_nil
  | cons statement imports ih =>
    unfold temporaries
    rcases List.mem_append.mp member with here | later
    · unfold linesOf at here
      split at here
      · simp at here
      next binds =>
      split at here
      · simp at here
      next sole =>
      obtain ⟨_, found, same⟩ := List.mem_map.mp (List.mem_of_ne_of_mem (by simp) here)
      obtain ⟨rfl, rfl⟩ := ImportLine.reads.inj same
      rw [if_neg (by simp [binds, sole])]
      exact ⟨statement, List.mem_cons_self, found⟩
    · obtain ⟨other, known, found⟩ := ih later
      unfold countAfter at known
      split at known
      · next settled => exact ⟨other, by rwa [if_pos settled], found⟩
      · next settled => exact ⟨other, by rw [if_neg settled]; exact .tail _ known, found⟩

private theorem plain_of_mem_targets {statement : Import} (plain : statement.Plain) {target : Text}
    (member : target ∈ targets statement) : ∀ b ∈ target, inTarget b = true := by
  rcases List.mem_append.mp member with assigned | taken
  · refine inTarget_of_name ?_
    rcases List.mem_append.mp assigned with found | found
    · exact plain.defaultNamed target (Option.mem_toList.mp found)
    · exact plain.namespaceNamed target (Option.mem_toList.mp found)
  · split at taken
    · exact absurd taken List.not_mem_nil
    · obtain rfl := List.mem_singleton.mp taken
      exact inTarget_exportsPattern plain.exportsNamed

private theorem plain_of_mem_linesOf {count : Nat} {statement : Import} (plain : statement.Plain) :
    ∀ line ∈ linesOf count statement, line.Plain := by
  have sole (name : Text) (bound : soleName? statement = some name) :
      name.isIdentifier = true := by
    unfold soleName? at bound
    split at bound
    · next found _ _ =>
      obtain rfl := Option.some.inj bound
      exact plain.defaultNamed _ found
    · next found _ =>
      obtain rfl := Option.some.inj bound
      exact plain.namespaceNamed _ found
    · contradiction
  unfold linesOf
  intro line member
  split at member
  · obtain rfl := List.mem_singleton.mp member
    exact plain.pathPlain
  split at member
  · next name bound =>
    obtain rfl := List.mem_singleton.mp member
    exact ⟨sole name bound, plain.pathPlain⟩
  · rcases List.mem_cons.mp member with rfl | member
    · exact ⟨isIdentifier_temporary count, plain.pathPlain⟩
    · obtain ⟨target, found, rfl⟩ := List.mem_map.mp member
      exact plain_of_mem_targets plain found

/-- The lines that stand for plain imports are plain. -/
theorem plain_of_mem_allLines {count : Nat} {imports : List Import}
    (plain : ∀ statement ∈ imports, statement.Plain) :
    ∀ line ∈ allLines count imports, line.Plain := by
  induction imports generalizing count with
  | nil => simp [allLines]
  | cons statement imports ih =>
    obtain ⟨first, others⟩ := List.forall_mem_cons.mp plain
    intro line member
    rcases List.mem_append.mp member with member | member
    · exact plain_of_mem_linesOf first line member
    · exact ih others line member

end Lines

section Sites

open Pattern Cursor RequireSite RequireLine

private def below (spell : ImportLine → Text) : List ImportLine → Text
  | [] => []
  | line :: lines => Byte.newline :: join [Byte.newline] ((line :: lines).map spell)

private theorem join_lines (spell : ImportLine → Text) (line : ImportLine)
    (lines : List ImportLine) :
    join [Byte.newline] ((line :: lines).map spell) = spell line ++ below spell lines := by
  cases lines with
  | nil => simp [join, below]
  | cons next lines => simp [join, below]

private theorem settles_lines {lines : List ImportLine} (plain : ∀ line ∈ lines, line.Plain) :
    Settles (join [Byte.newline] (lines.map ImportLine.text))
      (join [Byte.newline] (lines.map fun line => line.masked.text)) := by
  induction lines with
  | nil => exact .nil
  | cons line lines ih =>
    obtain ⟨first, others⟩ := List.forall_mem_cons.mp plain
    have lineEnd : Settles [Byte.newline] [Byte.newline] :=
      settles_plain (forall_mem_of_all (by decide))
    rw [join_lines, join_lines]
    refine (ImportLine.settles first).append ?_
    cases lines with
    | nil => exact .nil
    | cons next lines => exact lineEnd.append (ih others)

private def readIn (masked script : Text) (found : Match (Span × Quote × Span)) : Text × Text :=
  (masked.slice found.value.1, script.slice found.value.2.2)

variable {before tail : List Char} {copied name path : Text}

private theorem encode_name (named : name.isIdentifier = true) : encode (ascii name) = name :=
  encode_ascii fun b member => low_of_inTarget (inTarget_of_name named b member)

private theorem slice_name {form : Form} (named : name.isIdentifier = true)
    (spells : form = bindingForm (isName_ascii named) path.length) (rest : Text) :
    (encode before ++ ((ImportLine.binds name path).masked.text ++ rest)).slice
      ⟨(encode (before ++ form.declared)).length,
        (encode (before ++ form.declared ++ form.name)).length⟩ = name := by
  have declared : encode form.declared = ofString "const " := by rw [spells]; rfl
  have bytes : encode form.name = name := by rw [spells]; exact encode_name named
  have shape : encode before ++ ((ImportLine.binds name path).masked.text ++ rest) =
      (encode before ++ ofString "const ") ++ name ++ (ofString " = " ++
        requireCall (List.replicate path.length Byte.space) ++ rest) := by
    simp [ImportLine.masked, ImportLine.text, constant]
  rw [shape]
  exact slice_append _ (by simp [declared]) (by simp [declared, bytes, Nat.add_assoc])

private theorem slice_path {form : Form} (named : name.isIdentifier = true)
    (plain : PlainPath path) (spells : form = bindingForm (isName_ascii named) path.length)
    (length : copied.length = (encode before).length) (others : Text) :
    (copied ++ ((ImportLine.binds name path).text ++ others)).slice
      (contentSpan (before ++ form.declared ++ form.name ++ form.assigned) form.quote
        form.content) = path := by
  have declared : encode form.declared = ofString "const " := by rw [spells]; rfl
  have assigned : encode form.assigned = ofString " = require(" := by rw [spells]; rfl
  have quote : encode [form.quote.character] = [Byte.singleQuote] := by rw [spells]; rfl
  have bytes : encode form.name = name := by rw [spells]; exact encode_name named
  have spaces : (encode form.content).length = path.length := by
    have content : form.content = List.replicate path.length ' ' := by rw [spells]; rfl
    rw [content, encode_spaces, List.length_replicate]
  have shape : copied ++ ((ImportLine.binds name path).text ++ others) =
      (copied ++ ofString "const " ++ name ++ ofString " = require(" ++ [Byte.singleQuote]) ++
        path ++ ([Byte.singleQuote] ++ ofString ")" ++ others) := by
    have opening : ofString " = require(" = ofString " = " ++ ofString "require(" := rfl
    simp [ImportLine.text, constant, requireCall_eq plain, opening]
  rw [shape, contentSpan, List.append_cons _ form.quote.character form.content]
  refine slice_append _ ?_ ?_
  · simp only [encode_append, List.length_append, declared, assigned, quote, bytes, length]
  · simp only [encode_append, List.length_append, declared, assigned, quote, bytes, spaces]

private theorem search_line {line : ImportLine} (plain : line.Plain) (follows : Follows tail)
    (length : copied.length = (encode before).length)
    (boundary : isWord before.getLast? = false) :
    ∃ found, searchBehind RequireSite.pattern before (ascii line.masked.text ++ tail) =
        found ++ searchBehind RequireSite.pattern (before ++ ascii line.masked.text) tail ∧
      ∀ rest others : Text, found.map (readIn (encode before ++ (line.masked.text ++ rest))
        (copied ++ (line.text ++ others))) = line.module?.toList := by
  cases line with
  | binds name path =>
    obtain ⟨named, pathPlain⟩ := plain
    let form := bindingForm (isName_ascii named) path.length
    have spelled : form.spelled = ascii (ImportLine.binds name path).masked.text :=
      spelled_bindingForm named path.length
    have nonempty : form.spelled ≠ [] := by simp [Form.spelled, Binding.spelled]
    have found := searchBehind_of_some (matchAt?_form form tail fun _ => boundary) nonempty
    rw [← spelled]
    refine ⟨[_], found, fun rest others => ?_⟩
    rw [List.map_singleton]
    exact congrArg (fun pair => [pair]) (Prod.ext (slice_name named rfl rest)
      (slice_path named pathPlain rfl length others))
  | runs path =>
    refine ⟨[], searchBehind_of_fails fun front behind split nonempty value cursor member => ?_,
      fun _ _ => rfl⟩
    obtain ⟨form, rest, same, -⟩ := RequireSite.mem_pattern.mp member
    exact not_site_of_runs nonempty split same
  | reads target count =>
    refine ⟨[], searchBehind_of_fails fun front behind split nonempty value cursor member => ?_,
      fun _ _ => rfl⟩
    obtain ⟨form, rest, same, -⟩ := RequireSite.mem_pattern.mp member
    exact not_site_of_reads plain follows nonempty split same

private theorem exists_text_eq (line : ImportLine) :
    ∃ c rest, ascii line.text = c :: rest ∧ CharacterClass.wordOrDollar c.toNat = true := by
  have declares (target value : Text) :
      ascii (constant target value) = 'c' :: (ascii (ofString "onst ") ++ ascii target ++
        ascii (ofString " = ") ++ ascii value) := by
    have opening : ascii (ofString "const ") = 'c' :: ascii (ofString "onst ") := by decide
    simp only [constant, ascii_append, opening, List.cons_append]
  cases line with
  | binds name path => exact ⟨_, _, declares name (requireCall path), by decide⟩
  | runs path => exact ⟨'r', _, rfl, by decide⟩
  | reads target count => exact ⟨_, _, declares target (temporary count), by decide⟩

private theorem follows_below (lines : List ImportLine) :
    Follows (ascii (below (fun line => line.masked.text) lines)) := by
  cases lines with
  | nil => exact .inl rfl
  | cons line lines =>
    obtain ⟨c, rest, shape, word⟩ := exists_text_eq line.masked
    refine .inr ⟨_, rfl, fun d first => ?_⟩
    rw [← ascii, join_lines, ascii_append, shape] at first
    obtain rfl : c = d := Option.some.inj first
    exact word

private theorem search_line_end :
    searchBehind RequireSite.pattern before ('\n' :: tail) =
      searchBehind RequireSite.pattern (before ++ ['\n']) tail := by
  refine searchBehind_of_none (matchAt?_eq_none fun value cursor member => ?_)
  obtain ⟨form, rest, same, -⟩ := RequireSite.mem_pattern.mp member
  exact not_site_of_head (by decide) same

private theorem map_readIn_search {lines : List ImportLine} (plain : ∀ line ∈ lines, line.Plain)
    (length : copied.length = (encode before).length) (boundary : isWord before.getLast? = false) :
    (searchBehind RequireSite.pattern before
        (ascii (join [Byte.newline] (lines.map fun line => line.masked.text)))).map
      (readIn (encode before ++ join [Byte.newline] (lines.map fun line => line.masked.text))
        (copied ++ join [Byte.newline] (lines.map ImportLine.text))) =
      lines.filterMap ImportLine.module? := by
  induction lines generalizing before copied with
  | nil => simp [join, ascii]
  | cons line lines ih =>
    obtain ⟨first, others⟩ := List.forall_mem_cons.mp plain
    obtain ⟨found, searched, read⟩ := search_line first (follows_below lines) length boundary
    have maskedLength : line.text.length = line.masked.text.length := by
      rw [← (ImportLine.settles first none).1, scan_length]
    have maskedBytes : encode (ascii line.masked.text) = line.masked.text :=
      encode_ascii (ImportLine.low_of_mem_masked first)
    have rest : (searchBehind RequireSite.pattern (before ++ ascii line.masked.text)
        (ascii (below (fun line => line.masked.text) lines))).map
          (readIn
            (encode before ++ (line.masked.text ++ below (fun line => line.masked.text) lines))
            (copied ++ (line.text ++ below ImportLine.text lines))) =
          lines.filterMap ImportLine.module? := by
      cases lines with
      | nil => simp [below, ascii]
      | cons next lines =>
        have lineEnd (text : Text) : ascii (Byte.newline :: text) = '\n' :: ascii text := rfl
        have later := @ih (before ++ ascii line.masked.text ++ ['\n'])
          (copied ++ line.text ++ [Byte.newline]) others
          (by simp [length, maskedLength, maskedBytes]; rfl) (by simp [isWord]; decide)
        have lineEndBytes : String.utf8EncodeChar '\n' = [Byte.newline] := rfl
        rw [below, lineEnd, search_line_end]
        simpa [below, maskedBytes, lineEndBytes] using later
    rw [join_lines, join_lines, ascii_append, searched, List.map_append, read, rest]
    cases line <;> rfl

/-- Each line that binds a name to a module is found as a site. -/
theorem map_all_lines {lines : List ImportLine} (plain : ∀ line ∈ lines, line.Plain) :
    (RequireSite.all (join [Byte.newline] (lines.map ImportLine.text))).map
        (fun site => (site.binding, site.moduleName)) = lines.filterMap ImportLine.module? := by
  have masked : Text.mask (join [Byte.newline] (lines.map ImportLine.text)) =
      join [Byte.newline] (lines.map fun line => line.masked.text) := by
    rw [mask_eq_scan]
    exact (settles_lines plain none).1
  have low : ∀ b ∈ join [Byte.newline] (lines.map fun line => line.masked.text),
      b.toNat < 0x80 := by
    intro b member
    rcases mem_join member with separator | ⟨_, found, inside⟩
    · obtain rfl := List.mem_singleton.mp separator
      decide
    · obtain ⟨line, ofLines, rfl⟩ := List.mem_map.mp found
      exact ImportLine.low_of_mem_masked (plain line ofLines) b inside
  have found := @map_readIn_search [] [] lines plain rfl rfl
  rw [← search_encode, encode_ascii low] at found
  rw [RequireSite.all, masked, List.map_map]
  exact found

end Sites

section Stripped

open RequireLine

private theorem mem_lines_join {pieces : List Text} (free : ∀ piece ∈ pieces, Byte.newline ∉ piece)
    {line : Text} (member : line ∈ (join [Byte.newline] pieces).lines) :
    ∃ piece ∈ pieces, line = piece ∨ line = piece ++ [Byte.newline] := by
  induction pieces with
  | nil => exact absurd member List.not_mem_nil
  | cons piece pieces ih =>
    obtain ⟨first, others⟩ := List.forall_mem_cons.mp free
    cases pieces with
    | nil =>
      rw [join, lines] at member
      by_cases nothing : piece = []
      · simp [nothing] at member
      · rw [linesBy_last nothing first, List.mem_singleton] at member
        exact ⟨piece, List.mem_cons_self, .inl member⟩
    | cons next pieces =>
      rw [join, List.append_assoc, List.singleton_append, lines, linesBy_append_cons first]
        at member
      rcases List.mem_cons.mp member with rfl | later
      · exact ⟨piece, List.mem_cons_self, .inr rfl⟩
      · obtain ⟨other, found, same⟩ := ih others later
        exact ⟨other, List.mem_cons_of_mem _ found, same⟩

private theorem mem_read {texts : List Text}
    (settled : ∀ text ∈ texts, after start none text = start) {line : ScriptLine}
    (member : line ∈ ScriptLine.read start texts) :
    line.state = start ∧ line.text ∈ texts := by
  induction texts with
  | nil => exact absurd member List.not_mem_nil
  | cons text texts ih =>
    obtain ⟨first, others⟩ := List.forall_mem_cons.mp settled
    rw [ScriptLine.read, first] at member
    rcases List.mem_cons.mp member with rfl | later
    · exact ⟨rfl, List.mem_cons_self⟩
    · exact (ih others later).imp_right (List.mem_cons_of_mem _)

private theorem newline_not_mem_requireCall {path : Text} (plain : PlainPath path) :
    Byte.newline ∉ requireCall path := by
  have opening : Byte.newline ∉ ofString "require(" := by decide
  have closing : Byte.newline ∉ ofString ")" := by decide
  have inside : Byte.newline ∉ path := fun member => (plain.unescaped _ member).2 rfl
  rw [requireCall_eq plain]
  simp only [List.mem_append, List.mem_singleton, not_or]
  exact ⟨⟨opening, ⟨by decide, inside⟩, by decide⟩, closing⟩

private theorem newline_not_mem_constant {target value : Text}
    (inside : ∀ b ∈ target, inTarget b = true) (free : Byte.newline ∉ value) :
    Byte.newline ∉ constant target value := by
  have opening : Byte.newline ∉ ofString "const " := by decide
  have equals : Byte.newline ∉ ofString " = " := by decide
  have noLineEnd : Byte.newline ∉ target := fun member =>
    absurd (inside _ member) (by decide)
  simp [constant, opening, equals, noLineEnd, free]

private theorem newline_not_mem_text {line : ImportLine} (plain : line.Plain) :
    Byte.newline ∉ line.text := by
  cases line with
  | binds name path =>
    exact newline_not_mem_constant (inTarget_of_name plain.1) (newline_not_mem_requireCall plain.2)
  | runs path =>
    simp +decide [ImportLine.text, newline_not_mem_requireCall plain]
  | reads target count =>
    refine newline_not_mem_constant plain fun member => ?_
    exact absurd (inTarget_temporary count _ member) (by decide)

private def ending (ended : Bool) : Text := if ended then [Byte.newline] else []

private theorem settles_ending (ended : Bool) : Settles (ending ended) (ending ended) := by
  cases ended
  · exact .nil
  · exact settles_plain (forall_mem_of_all (by decide))

private theorem exists_line {lines : List ImportLine} (plain : ∀ line ∈ lines, line.Plain)
    {read : ScriptLine}
    (member : read ∈ ScriptLine.all (join [Byte.newline] (lines.map ImportLine.text))) :
    ∃ line ∈ lines, ∃ ended : Bool, read.text = line.text ++ ending ended ∧
      read.mask = line.masked.text ++ ending ended := by
  have shape {text : Text}
      (inside : text ∈ (join [Byte.newline] (lines.map ImportLine.text)).lines) :
      ∃ line ∈ lines, ∃ ended : Bool, text = line.text ++ ending ended := by
    obtain ⟨_, found, same⟩ := mem_lines_join (fun piece found => by
      obtain ⟨line, ofLines, rfl⟩ := List.mem_map.mp found
      exact newline_not_mem_text (plain line ofLines)) inside
    obtain ⟨line, ofLines, rfl⟩ := List.mem_map.mp found
    rcases same with rfl | rfl
    · exact ⟨line, ofLines, false, (List.append_nil _).symm⟩
    · exact ⟨line, ofLines, true, rfl⟩
  obtain ⟨state, inside⟩ := mem_read (fun text inside => by
    obtain ⟨line, ofLines, ended, rfl⟩ := shape inside
    exact ((ImportLine.settles (plain line ofLines)).append (settles_ending ended) none).2) member
  obtain ⟨line, ofLines, ended, text⟩ := shape inside
  refine ⟨line, ofLines, ended, text, ?_⟩
  rw [ScriptLine.mask, state, text]
  exact ((ImportLine.settles (plain line ofLines)).append (settles_ending ended) none).1

/-- Whether a line reads a temporary. -/
def ImportLine.isRead : ImportLine → Bool
  | binds _ _ | runs _ => false
  | reads _ _ => true

private theorem gap_nil : Gap [] := fun _ member => absurd member List.not_mem_nil

private theorem gap_of_terminated (terminated : Bool) :
    ∀ behind ∈ if terminated then some [] else none, Gap behind := by
  cases terminated <;> simp [gap_nil]

private theorem quote_not_mem_spaces (width : Nat) :
    Quote.single.character ∉ List.replicate width ' ' ∧ '\n' ∉ List.replicate width ' ' := by
  simp [Quote.character]

private def lineCall (width : Nat) (terminated ended : Bool) : Call where
  inner := []
  quote := .single
  name := List.replicate width ' '
  outer := []
  closing := ⟨[], if terminated then some [] else none, false, ended, gap_nil,
    gap_of_terminated terminated⟩
  innerValid := gap_nil
  nameValid := quote_not_mem_spaces width
  outerValid := gap_nil

private theorem spelled_lineCall (width : Nat) (terminated ended : Bool) :
    (lineCall width terminated ended).spelled =
      ascii (requireCall (List.replicate width Byte.space)) ++ (if terminated then [';'] else []) ++
        if ended then ['\n'] else [] := by
  have called : "require('".toList = Call.opening ++ ['\x27'] := rfl
  have closing : "')".toList = ['\x27', ')'] := rfl
  rw [ascii_requireCall, called, closing]
  cases terminated <;>
    simp [Call.spelled, lineCall, Closing.spelled, Closing.ending, Quote.character]

private theorem endsInCall_line {front : List Char} {width : Nat} {terminated ended : Bool}
    (inside : '\n' ∉ front) (boundary : Pattern.isWord front.getLast? = false) :
    EndsInCall (front ++ (ascii (requireCall (List.replicate width Byte.space)) ++
      (if terminated then [';'] else []) ++ if ended then ['\n'] else [])) :=
  ⟨front, lineCall width terminated ended, by rw [spelled_lineCall], inside, boundary⟩

private theorem exists_reads_eq (target : Text) (count : Nat) : ∃ front last,
    constant target (temporary count) = front ++ [last] ∧ Byte.isDigit last = true := by
  obtain ⟨digits, last, shape⟩ : ∃ digits last, ofNat count = digits ++ [last] :=
    (List.eq_nil_or_concat' _).resolve_left (ofNat_ne_nil count)
  have digit : Byte.isDigit last = true := @isDigit_of_mem_ofNat count last (by simp [shape])
  exact ⟨_, last, by rw [constant, temporary, shape, ← List.append_assoc, ← List.append_assoc],
    digit⟩

private theorem not_endsInCall_reads (target : Text) (count : Nat) (ended : Bool) :
    ¬EndsInCall (ascii (constant target (temporary count)) ++ if ended then ['\n'] else []) := by
  rintro ⟨front, call, same, -, -⟩
  obtain ⟨others, last, shape, digit⟩ := exists_reads_eq target count
  have lastChar : ascii [last] = [Char.ofUInt8 last] := rfl
  have range : 0x30 ≤ (Char.ofUInt8 last).toNat ∧ (Char.ofUInt8 last).toNat ≤ 0x39 := by
    simpa [Byte.isDigit, toNat_ofUInt8, UInt8.le_iff_toNat_le] using digit
  rw [shape, ascii_append, lastChar] at same
  generalize Char.ofUInt8 last = c at same range
  have outside : c ∉ [' ', '\t', ';', '\r', '\n'] := fun member => by
    simp only [List.mem_cons, List.not_mem_nil, or_false] at member
    rcases member with rfl | rfl | rfl | rfl | rfl
    all_goals exact absurd range (by decide)
  have lineEnd : ∀ d ∈ if ended then ['\n'] else [], d ∈ [' ', '\t', ';', '\r', '\n'] := by
    cases ended <;> simp
  rw [Call.spelled, List.append_assoc, List.singleton_append, ← List.append_assoc] at same
  obtain ⟨-, parenthesis, -⟩ := append_cons_inj_of_not (· ∈ [' ', '\t', ';', '\r', '\n']) same
    outside (by decide) lineEnd call.closing.mem_spelled
  rw [parenthesis] at range
  exact absurd range (by decide)

private theorem newline_not_mem_ascii {text : Text} (free : Byte.newline ∉ text) :
    '\n' ∉ ascii text := by
  intro member
  obtain ⟨b, inside, code⟩ := List.mem_map.mp member
  have same := congrArg Char.toNat code
  rw [toNat_ofUInt8] at same
  obtain rfl : b = Byte.newline := UInt8.toNat_inj.mp same
  exact free inside

private theorem plain_masked {line : ImportLine} (plain : line.Plain) : line.masked.Plain := by
  cases line with
  | binds name path => exact ⟨plain.1, plainPath_spaces _⟩
  | runs path => exact plainPath_spaces _
  | reads target count => exact plain

private theorem isLine_masked {line : ImportLine} (plain : line.Plain) (ended : Bool) :
    IsLine '\n' (ascii line.masked.text ++ if ended then ['\n'] else []) := by
  have free := newline_not_mem_ascii (newline_not_mem_text (plain_masked plain))
  obtain ⟨c, rest, shape, -⟩ := exists_text_eq line.masked
  refine ⟨by simp [shape], fun member => free ?_⟩
  cases ended with
  | true => simpa using member
  | false => exact List.dropLast_subset _ (by simpa using member)

private theorem isRequireLine_masked {line : ImportLine} (plain : line.Plain) (ended : Bool) :
    isRequireLine (line.masked.text ++ ending ended) = !line.isRead := by
  have encoded : line.masked.text ++ ending ended =
      encode (ascii line.masked.text ++ if ended then ['\n'] else []) := by
    rw [encode_append, encode_ascii (ImportLine.low_of_mem_masked plain)]
    cases ended <;> rfl
  rw [encoded, Bool.eq_iff_iff, isRequireLine_encode (isLine_masked plain ended)]
  cases line with
  | binds name path =>
    have shape : ascii (ImportLine.binds name path).masked.text =
        ascii (ofString "const " ++ name) ++ [' ', '=', ' '] ++
          ascii (requireCall (List.replicate path.length Byte.space)) := by
      have equals : ascii (ofString " = ") = [' ', '=', ' '] := by decide
      rw [← equals, ← ascii_append, ← ascii_append]
      rfl
    have opening : Byte.newline ∉ ofString "const " := by decide
    have free : '\n' ∉ ascii (ofString "const " ++ name) := newline_not_mem_ascii fun member =>
      (List.mem_append.mp member).elim opening fun inside =>
        absurd (inTarget_of_name plain.1 _ inside) (by decide)
    have ends := @endsInCall_line (ascii (ofString "const " ++ name) ++ [' ', '=', ' ']) path.length
      false ended (by rw [List.mem_append, not_or]; exact ⟨free, by decide⟩)
      (by simp [Pattern.isWord]; decide)
    rw [shape, List.append_assoc]
    simpa [ImportLine.isRead] using ends
  | runs path =>
    have shape : ascii (ImportLine.runs path).masked.text =
        ascii (requireCall (List.replicate path.length Byte.space)) ++ [';'] := ascii_append ..
    have ends := @endsInCall_line [] path.length true ended (by simp) rfl
    rw [shape]
    simpa [ImportLine.isRead] using ends
  | reads target count =>
    have shape : (ImportLine.reads target count).masked.text = constant target (temporary count) :=
      rfl
    rw [shape]
    simpa [ImportLine.isRead] using not_endsInCall_reads target count ended

private theorem exists_call_eq {line : ImportLine} (plain : line.Plain)
    (calls : line.isRead = false) : ∃ front last, line.text = front ++ [last] ∧
      Byte.isDigit last = false ∧ last ≠ Byte.newline := by
  have closing : ofString ")" = [Byte.closeParen] := rfl
  cases line with
  | binds name path =>
    refine ⟨ofString "const " ++ name ++ ofString " = " ++ (ofString "require(" ++
      ([Byte.singleQuote] ++ path ++ [Byte.singleQuote])), Byte.closeParen, ?_, by decide,
      by decide⟩
    rw [ImportLine.text, constant, requireCall_eq plain.2, closing, ← List.append_assoc]
  | runs path => exact ⟨requireCall path, Byte.semicolon, rfl, by decide, by decide⟩
  | reads target count => exact absurd calls Bool.true_eq_false.mp

private theorem readsTemporary_text {count : Nat} {imports : List Import} {line : ImportLine}
    (plain : line.Plain) (member : line ∈ allLines count imports) (ended : Bool) :
    ReadsTemporary count imports (line.text ++ ending ended) ↔ line.isRead = true := by
  constructor
  · rintro ⟨⟨number, statement⟩, -, target, -, behind, ends, same⟩
    by_contra calls
    obtain ⟨front, last, shape, noDigit, solid⟩ :=
      exists_call_eq plain (Bool.not_eq_true _ ▸ calls)
    obtain ⟨others, digit, reads, isDigit⟩ := exists_reads_eq target number
    have digitSolid : digit ≠ Byte.newline := by
      rintro rfl
      exact absurd isDigit (by decide)
    rw [shape, reads, List.append_assoc, List.append_assoc] at same
    obtain ⟨-, rfl, -⟩ := append_cons_inj_of_not (· = Byte.newline) same solid digitSolid
      (by unfold ending; cases ended <;> simp) (by rcases ends with rfl | rfl <;> simp)
    rw [noDigit] at isDigit
    exact Bool.false_ne_true isDigit
  · intro reads
    cases line with
    | binds name path => exact absurd reads Bool.false_ne_true
    | runs path => exact absurd reads Bool.false_ne_true
    | reads target number =>
      obtain ⟨statement, known, found⟩ := exists_of_reads_mem_allLines member
      refine ⟨_, known, target, found, ending ended, ?_, rfl⟩
      cases ended
      · exact .inl rfl
      · exact .inr rfl

end Stripped

section Strings

theorem isString_join {separator : Text} (separated : IsString separator) {pieces : List Text}
    (strings : ∀ piece ∈ pieces, IsString piece) : IsString (join separator pieces) := by
  induction pieces with
  | nil => exact ⟨[], rfl⟩
  | cons piece pieces ih =>
    obtain ⟨first, others⟩ := List.forall_mem_cons.mp strings
    cases pieces with
    | nil => exact first
    | cons next pieces => exact (first.append separated).append (ih others)

theorem isString_requireCall {path : Text} (string : IsString path) :
    IsString (requireCall path) := by
  have opening := isString_ofString "require("
  have closing := isString_ofString ")"
  have quote : IsString [if path.contains "'" then Byte.doubleQuote else Byte.singleQuote] := by
    split
    · exact ⟨['\x22'], rfl⟩
    · exact ⟨['\x27'], rfl⟩
  exact (((opening.append quote).append string).append quote).append closing

theorem isString_constant {target value : Text} (targetString : IsString target)
    (string : IsString value) : IsString (constant target value) :=
  (((isString_ofString "const ").append targetString).append (isString_ofString " = ")).append
    string

theorem isString_of_inTarget {text : Text} (inside : ∀ b ∈ text, inTarget b = true) :
    IsString text :=
  isString_of_low fun b member => low_of_inTarget (inside b member)

private theorem isString_text {line : ImportLine} (plain : line.Plain) : IsString line.text := by
  have pathString {path : Text} (plain : PlainPath path) : IsString path := by
    obtain ⟨string, spelled⟩ := plain.string
    exact ⟨string.toList, spelled⟩
  cases line with
  | binds name path =>
    exact isString_constant (isString_of_inTarget (inTarget_of_name plain.1))
      (isString_requireCall (pathString plain.2))
  | runs path => exact (isString_requireCall (pathString plain)).append ⟨[';'], rfl⟩
  | reads target count =>
    exact isString_constant (isString_of_inTarget plain)
      (isString_of_inTarget (inTarget_temporary count))

end Strings

/-- The statements that stand for plain imports resolve to what the imports bind: there is one site
for each import that binds a name, in order, with the path of the module and with the import's only
name or the next temporary, and stripping keeps exactly the lines that take what an import names out
of its temporary. -/
theorem requireText_resolves (count : Nat) {imports : List Import}
    (plain : ∀ statement ∈ imports, statement.Plain) :
    (RequireSite.all (requireText count imports)).map
      (fun site => (site.binding, site.moduleName)) = boundModules count imports ∧
    Function.Injective temporary ∧
    RequireLine.strip (requireText count imports) =
      (RequireLine.keptLines (requireText count imports)).flatMap ScriptLine.text ∧
    ∀ line ∈ ScriptLine.all (requireText count imports),
      line ∈ RequireLine.keptLines (requireText count imports) ↔
        ReadsTemporary count imports line.text := by
  have plainLines := @plain_of_mem_allLines count imports plain
  rw [requireText_eq fun statement member => (plain statement member).values]
  refine ⟨?_, fun first second same => ?_, ?_, fun read member => ?_⟩
  · rw [map_all_lines plainLines, filterMap_module?_allLines]
  · exact ofNat_injective (List.append_cancel_left same)
  · obtain ⟨characters, spelled⟩ := isString_join isString_newline (fun piece found => by
      obtain ⟨line, ofLines, rfl⟩ := List.mem_map.mp found
      exact isString_text (plainLines line ofLines))
    have string : join [Byte.newline] ((allLines count imports).map ImportLine.text) =
        ofString (String.ofList characters) := by
      rw [spelled, ofString_eq, String.toList_ofList]
    rw [string]
    exact RequireLine.strip_eq _
  · obtain ⟨line, ofLines, ended, text, mask⟩ := exists_line plainLines member
    have plainLine := plainLines line ofLines
    rw [RequireLine.keptLines, List.mem_filter, mask, text, isRequireLine_masked plainLine,
      readsTemporary_text plainLine ofLines]
    simp [member]

/-- One import of each kind: a default, two names at once, the module itself, and effects alone. -/
def mixedImports : List Import :=
  [⟨⟨0, 0⟩, some "App", none, [], "./app", false⟩,
    ⟨⟨0, 0⟩, some "chart", none, [("line", "line"), ("bar", "bars")], "chart", false⟩,
    ⟨⟨0, 0⟩, none, some "tools", [], "tools", false⟩,
    ⟨⟨0, 0⟩, none, none, [], "./style", false⟩]

/-- Of four mixed imports three bind a module, one of them in a temporary. -/
theorem requireText_resolves_mixed :
    (∀ statement ∈ mixedImports, statement.Plain) ∧
      (RequireSite.all (requireText 3 mixedImports)).map
        (fun site => (site.binding, site.moduleName)) =
        ([("App", "./app"), ("__import_3", "chart"), ("tools", "tools")] : List (Text × Text)) := by
  have path (string : String) (all : ((string : Text).all fun b =>
      (b ≠ Byte.singleQuote ∧ b ≠ Byte.doubleQuote) ∧ b ≠ Byte.backslash ∧ b ≠ Byte.newline) =
        true) : PlainPath string :=
    ⟨⟨string, rfl⟩, fun b member => (forall_mem_of_all all b member).1,
      fun b member => (forall_mem_of_all all b member).2⟩
  have plain : ∀ statement ∈ mixedImports, statement.Plain := by
    simp only [mixedImports, List.forall_mem_cons, List.not_mem_nil, false_imp_iff, implies_true,
      and_true]
    exact
      ⟨⟨rfl, path "./app" (by decide), by decide, by decide, by decide⟩,
        ⟨rfl, path "chart" (by decide), by decide, by decide, by decide⟩,
        ⟨rfl, path "tools" (by decide), by decide, by decide, by decide⟩,
        ⟨rfl, path "./style" (by decide), by decide, by decide, by decide⟩⟩
  exact ⟨plain, (requireText_resolves 3 plain).1.trans (by decide)⟩

end ComponentScript

end BareComponent
