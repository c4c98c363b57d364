import BareComponent.Proofs.Component.Ending
import BareComponent.Proofs.FunctionBody.Laminar
import BareComponent.Proofs.Mask.Literals

/-! # Which literals a compiled component keeps

A script is rewritten in up to three passes. Imports and exported declarations are searched in the
script as it is spelled, so they are also found in templates, in comments and in strings that go on
over a line end. The default export is searched in the mask, where a string or a template shows its
delimiters and a comment shows nothing. A literal therefore stands in the compiled script as it does
in its block if no import is read where it stands and, in the plain script, none of its lines begins
with `export`, unless it is a comment beside the words of the default export.
-/

namespace BareComponent

open Text Pattern Cursor Scanner

namespace Scanner

section Delimiters

private def Delimits (c : Char) : Prop := c ∈ ['\x27', '\x22', '\x60', '/']

private theorem exists_delimits {b : UInt8} (member : b ∈ delimiters) :
    ∃ c, Delimits c ∧ String.utf8EncodeChar c = [b] ∧ b.toNat < 0x80 := by
  simp only [delimiters, List.mem_cons, List.not_mem_nil, or_false] at member
  rcases member with rfl | rfl | rfl | rfl
  · exact ⟨'\x27', by simp [Delimits], rfl, by decide⟩
  · exact ⟨'\x22', by simp [Delimits], rfl, by decide⟩
  · exact ⟨'\x60', by simp [Delimits], rfl, by decide⟩
  · exact ⟨'/', by simp [Delimits], rfl, by decide⟩

private theorem not_delimits_of_blank {c : Char} (blank : CharacterClass.blank c.toNat = true) :
    ¬Delimits c := by
  simp only [Delimits, List.mem_cons, List.not_mem_nil, or_false]
  rintro (rfl | rfl | rfl | rfl) <;> exact absurd blank (by decide)

private theorem not_delimits_of_mem_export : ∀ c ∈ "export".toList, ¬Delimits c := by
  unfold Delimits
  exact forall_mem_of_all (by decide)

end Delimiters

end Scanner

namespace Scanner.IsLiteral

variable {text : Text} {literal : Span} (isLiteral : IsLiteral text literal)
include isLiteral

/-- A literal of a string takes whole characters. -/
theorem isWhole (string : IsString text) : text.IsWhole literal := by
  obtain ⟨delimiter, member, opens⟩ := isLiteral.begins.exists_delimiter
  obtain ⟨-, -, -, low⟩ := exists_delimits member
  have starts := (isBoundary_of_ascii string opens low).1
  refine starts.isWhole ?_ isLiteral.nonempty.le
  rcases isLiteral.ends_at with whole | line | ⟨b, member, closes⟩
  · exact whole ▸ isBoundary_length text
  · exact (isBoundary_of_ascii string line (by decide)).1
  · obtain ⟨-, -, -, low⟩ := exists_delimits member
    have stops := (isBoundary_of_ascii string closes low).2
    rwa [Nat.sub_add_cancel (Nat.one_le_of_lt isLiteral.nonempty)] at stops

end Scanner.IsLiteral

namespace ComponentScript

/-- A line that begins with the word `export`. -/
def exportLine : Pattern Unit := do
  Pattern.lineStart
  Pattern.run (.oneOf " \t")
  Pattern.literal "export"
  Pattern.wordBoundary

private theorem eq_of_head?_encode {c d : Char} {b : UInt8} {rest : List Char}
    (spelled : String.utf8EncodeChar d = [b]) (low : b.toNat < 0x80)
    (first : (encode (c :: rest)).head? = some b) : c = d := by
  obtain ⟨e, bytes, shape⟩ := List.exists_cons_of_ne_nil (String.utf8EncodeChar_ne_nil (c := c))
  rw [encode_cons, shape, List.cons_append, List.head?_cons, Option.some.injEq] at first
  have member : b ∈ String.utf8EncodeChar c := by
    rw [shape, first]
    exact List.mem_cons_self
  exact encodeChar_injective ((encodeChar_eq_singleton member low).1.trans spelled.symm)

section Literals

variable {characters : List Char} {literal : Span}

private theorem exists_literal (isLiteral : IsLiteral (encode characters) literal) :
    ∃ front piece behind, characters = front ++ (piece ++ behind) ∧
      (encode front).length = literal.start ∧ (encode (front ++ piece)).length = literal.stop ∧
      (encode characters).slice literal = encode piece ∧
      (∃ c rest, piece = c :: rest ∧ Delimits c) ∧
      (behind = [] ∨ (∃ rest, behind = '\n' :: rest) ∨ ∃ c ∈ piece.getLast?, Delimits c) := by
  obtain ⟨front, piece, behind, rfl, start, stop, cut⟩ :=
    (isLiteral.isWhole ⟨characters, rfl⟩).exists_append
  have nonempty : piece ≠ [] := by
    rintro rfl
    rw [List.append_nil, start] at stop
    exact isLiteral.nonempty.ne stop
  have read {place : Nat} {b : UInt8} (low : b.toNat < 0x80)
      (reads : (encode (front ++ (piece ++ behind)))[place]? = some b) :
      ∃ before c after, front ++ (piece ++ behind) = before ++ c :: after ∧
        (encode before).length = place ∧ String.utf8EncodeChar c = [b] := by
    obtain ⟨bytes, rest, split, length⟩ := exists_append_of_getElem? reads
    obtain ⟨before, c, after, same, rfl, spelled, -⟩ := encode_eq_append_cons split low
    exact ⟨before, c, after, same, length, spelled⟩
  refine ⟨front, piece, behind, rfl, start, stop, cut, ?_, ?_⟩
  · obtain ⟨b, member, opens⟩ := isLiteral.begins.exists_delimiter
    obtain ⟨d, delimits, spelled, low⟩ := exists_delimits member
    obtain ⟨before, c, after, same, place, bytes⟩ := read low opens
    obtain rfl := append_inj_of_length same (start.trans place.symm)
    obtain rfl := encodeChar_injective (bytes.trans spelled.symm)
    obtain ⟨d, rest, rfl⟩ := List.exists_cons_of_ne_nil nonempty
    obtain ⟨rfl, -⟩ := List.cons.inj (List.append_cancel_left same)
    exact ⟨d, rest, rfl, delimits⟩
  · rcases isLiteral.ends_at with whole | line | ⟨b, member, closes⟩
    · left
      have length : (encode (front ++ piece)).length = (encode (front ++ (piece ++ behind))).length :=
        stop.trans whole
      rw [← List.append_assoc, encode_append _ behind, List.length_append] at length
      exact eq_nil_of_encode (List.length_eq_zero_iff.mp (by omega))
    · obtain ⟨before, c, after, same, place, bytes⟩ := read (by decide) line
      rw [← List.append_assoc] at same
      obtain rfl := append_inj_of_length same (stop.trans place.symm)
      obtain rfl : c = '\n' := encodeChar_injective (bytes.trans rfl)
      exact .inr (.inl ⟨after, List.append_cancel_left same⟩)
    · obtain ⟨d, delimits, spelled, low⟩ := exists_delimits member
      obtain ⟨before, c, after, same, place, bytes⟩ := read low closes
      obtain rfl := encodeChar_injective (bytes.trans spelled.symm)
      have last : (encode (before ++ [c])).length = (encode (front ++ piece)).length := by
        rw [stop, encode_append, List.length_append, place, encode_cons, bytes]
        exact Nat.sub_add_cancel (Nat.one_le_of_lt isLiteral.nonempty)
      rw [← List.append_assoc, List.append_cons] at same
      have ends := append_inj_of_length same last.symm
      refine .inr (.inr ⟨c, ?_, delimits⟩)
      rw [Option.mem_def, ← List.getLast?_append_of_ne_nil front nonempty, ends,
        List.getLast?_concat]

end Literals

section Exports

variable {a l r before lead gap tail : List Char}

private theorem exists_line_of_meets {words : List Char}
    (same : a ++ (l ++ r) = before ++ lead ++ (words ++ tail))
    (opens : ∃ c rest, l = c :: rest ∧ Delimits c) (led : ∀ c ∈ lead, ¬Delimits c)
    (worded : ∀ c ∈ words, ¬Delimits c)
    (starts : (encode (before ++ lead)).length < (encode (a ++ l)).length)
    (stops : (encode a).length < (encode (before ++ lead ++ words)).length) :
    ∃ front more, before = a ++ front ∧ front ≠ [] ∧ l = front ++ (lead ++ more) ∧ more ≠ [] ∧
      words ++ tail = more ++ r := by
  obtain ⟨c, others, rfl, delimits⟩ := opens
  have meets : before ++ lead ++ (words ++ tail) = (a ++ c :: others) ++ r := by
    rw [← same, List.append_assoc a]
  obtain ⟨more, split, behind⟩ := exists_append_of_length_le meets starts.le
  have reaches : a ++ (c :: others ++ r) = (before ++ lead ++ words) ++ tail := by
    rw [same, List.append_assoc _ words]
  obtain ⟨rest, covered, ahead⟩ := exists_append_of_length_le reaches stops.le
  have moreSome : more ≠ [] := by
    rintro rfl
    rw [split, List.append_nil] at starts
    exact Nat.lt_irrefl _ starts
  have outside (extra : List Char) : a ≠ before ++ extra := by
    rintro rfl
    cases rest with
    | nil =>
      rw [covered, List.append_nil] at stops
      exact Nat.lt_irrefl _ stops
    | cons d rest =>
      obtain ⟨rfl, -⟩ := List.cons.inj ahead
      have inside : lead ++ words = extra ++ c :: rest := by
        simpa only [List.append_assoc, List.append_cancel_left_eq] using covered
      have member : c ∈ lead ++ words := by
        rw [inside]
        exact List.mem_append_right _ List.mem_cons_self
      rcases List.mem_append.mp member with member | member
      · exact led c member delimits
      · exact worded c member delimits
  rw [List.append_assoc] at split
  rcases List.append_eq_append_iff.mp split with ⟨front, rfl, lEq⟩ | ⟨extra, aEq, -⟩
  · refine ⟨front, more, rfl, ?_, lEq, moreSome, behind⟩
    rintro rfl
    exact outside [] (by simp)
  · exact absurd aEq (outside extra)

private theorem exists_rest_of_meets {more : List Char} (nonempty : more ≠ [])
    (same : "export".toList ++ (gap ++ tail) = more ++ r) (blank : Blank gap) (spaced : gap ≠ [])
    (closes : (∀ c ∈ more.getLast?, Delimits c ∨ c = '\n') ∨ ∀ c ∈ r.head?, c = '\n') :
    ∃ rest, more = "export".toList ++ rest ∧ ∀ c ∈ rest.head?, CharacterClass.blank c.toNat = true
    := by
  have letters : ∀ c ∈ "export".toList, ¬(Delimits c ∨ c = '\n') := by
    unfold Delimits
    exact forall_mem_of_all (by decide)
  rcases List.append_eq_append_iff.mp same with ⟨rest, moreEq, split⟩ | ⟨cut, wordEq, rEq⟩
  · refine ⟨rest, moreEq, fun c first => ?_⟩
    obtain ⟨d, gap, rfl⟩ := List.exists_cons_of_ne_nil spaced
    cases rest with
    | nil => contradiction
    | cons e rest =>
      obtain rfl : e = c := Option.some.inj first
      obtain ⟨rfl, -⟩ := List.cons.inj split
      exact blank d List.mem_cons_self
  · cases cut with
    | nil => exact ⟨[], by rw [wordEq, List.append_nil, List.append_nil], by simp⟩
    | cons d cut =>
      rcases closes with closes | closes
      · have last := List.getLast?_eq_some_getLast nonempty
        have member : more.getLast nonempty ∈ "export".toList := by
          rw [wordEq]
          exact List.mem_append_left _ (List.getLast_mem nonempty)
        exact absurd (closes _ last) (letters _ member)
      · have member : d ∈ "export".toList := by
          rw [wordEq]
          exact List.mem_append_right _ List.mem_cons_self
        exact absurd (.inr (closes d (by rw [rEq]; rfl))) (letters d member)

/-- The edits that make the exported declarations of a script plain ones. -/
def exportEdits (script : Text) : List (Span × Text) :=
  (namedExport.search script).map fun found => (found.value, [])

theorem dropNamedExports_eq (script : Text) :
    dropNamedExports script = script.replace (exportEdits script) := rfl

/-- The edits that drop named exports follow one another in the script. -/
theorem rising_exportEdits {script : Text} (string : IsString script) :
    (exportEdits script).Pairwise (·.1.stop ≤ ·.1.start) ∧
      ∀ edit ∈ exportEdits script, edit.1.start ≤ edit.1.stop := by
  obtain ⟨rising, whole⟩ := rising_namedExport string
  refine ⟨List.pairwise_map.mpr (List.pairwise_map.mp rising), fun edit member => ?_⟩
  obtain ⟨found, searched, rfl⟩ := List.mem_map.mp member
  exact (whole found searched).ordered

private theorem search_exportLine_ne_nil {front rest : List Char}
    (line : ∀ c ∈ front.getLast?, c = '\n') (led : ∀ c ∈ lead, c ∈ [' ', '\t'])
    (ends : isWord rest.head? = false) :
    exportLine.search (encode (front ++ (lead ++ ("export".toList ++ rest)))) ≠ [] := by
  intro nothing
  have member : ((), between (front ++ lead ++ "export".toList) rest) ∈
      exportLine (between front (lead ++ ("export".toList ++ rest))) := by
    refine mem_bind.mpr ⟨(), _, mem_lineStart.mpr ⟨line, rfl⟩, ?_⟩
    refine mem_bind.mpr ⟨(), _, mem_run.mpr ⟨lead, _, rfl, fun c inside => ?_, ?_, rfl⟩, ?_⟩
    · exact (CharacterClass.oneOf_encode (forall_mem_of_all (by decide)) c).mpr (led c inside)
    · rintro c first
      obtain rfl : 'e' = c := Option.some.inj first
      decide
    refine mem_bind.mpr ⟨(), _, literal_mem _ "export".toList rest, mem_wordBoundary.mpr ⟨?_, rfl⟩⟩
    have last : (front ++ lead ++ "export".toList).getLast? = some 't' := by
      rw [List.getLast?_append]
      rfl
    rw [last, ends]
    decide
  have untaken : matchAt? exportLine
      (between ([] ++ front) (lead ++ ("export".toList ++ rest))) = none :=
    matchAt?_eq_none_of_search nothing (by simp)
  refine matchAt?_ne_none member (fun other stop inside => ?_) untaken
  obtain ⟨_, _, starts, inside⟩ := mem_bind.mp inside
  obtain ⟨-, rfl⟩ := mem_lineStart.mp starts
  obtain ⟨_, _, blanks, inside⟩ := mem_bind.mp inside
  obtain ⟨blanks, more, -, -, -, rfl⟩ := mem_run.mp blanks
  obtain ⟨_, _, word, inside⟩ := mem_bind.mp inside
  obtain ⟨_, rfl, rfl⟩ :=
    mem_literal.mp (word : _ ∈ Pattern.literal (encode "export".toList) _)
  obtain ⟨-, rfl⟩ := mem_wordBoundary.mp inside
  have wordLength : 0 < (encode "export".toList).length := by decide
  rw [position_between, position_between, encode_append, encode_append, List.length_append,
    List.length_append]
  omega

private theorem apart_of_namedExport {found : Match Span}
    (opens : ∃ c rest, l = c :: rest ∧ Delimits c)
    (closes : (∀ c ∈ l.getLast?, Delimits c ∨ c = '\n') ∨ ∀ c ∈ r.head?, c = '\n')
    (unlined : exportLine.search (encode l) = [])
    (member : found ∈ namedExport.search (encode (a ++ (l ++ r)))) :
    (encode (a ++ l)).length ≤ found.value.start ∨ found.value.stop ≤ (encode a).length := by
  obtain ⟨before, after, same, here⟩ := exists_of_mem_search member
  obtain ⟨next, matched, -⟩ := exists_of_matchAt? here
  obtain ⟨lead, gap, behind, rest, rfl, line, led, blank, spaced, value, -⟩ :=
    exists_namedExport matched
  by_contra meets
  rw [value, not_or, Nat.not_le, Nat.not_le] at meets
  obtain ⟨starts, stops⟩ := meets
  have ledPlain : ∀ c ∈ lead, ¬Delimits c := by
    intro c inside delimits
    rcases List.mem_pair.mp (led c inside) with rfl | rfl <;> simp [Delimits] at delimits
  have worded : ∀ c ∈ "export".toList ++ gap, ¬Delimits c :=
    List.forall_mem_append.mpr ⟨not_delimits_of_mem_export,
      fun c inside => not_delimits_of_blank (blank c inside)⟩
  have same : a ++ (l ++ r) =
      before ++ lead ++ (("export".toList ++ gap) ++ (behind ++ rest)) := by
    simpa only [List.append_assoc] using same
  obtain ⟨front, more, rfl, nonempty, rfl, moreSome, split⟩ :=
    exists_line_of_meets same opens ledPlain worded starts stops
  have last : (front ++ (lead ++ more)).getLast? = more.getLast? := by
    rw [← List.append_assoc, List.getLast?_append_of_ne_nil _ moreSome]
  rw [last] at closes
  obtain ⟨rest, rfl, ends⟩ := exists_rest_of_meets moreSome (List.append_assoc .. ▸ split) blank
    spaced closes
  refine search_exportLine_ne_nil (fun c final => line c ?_) led ?_ unlined
  · rw [Option.mem_def, List.getLast?_append_of_ne_nil _ nonempty]
    exact final
  · cases head : rest.head? with
    | none => rfl
    | some c => exact CharacterClass.word_of_blank (ends c head)

end Exports

section Imports

/-- The edits that put require statements in place of the imports of a script. -/
def importEdits (count : Nat) (script : Text) : List (Span × Text) :=
  (requireEdits count (Import.all script)).1

variable {script : Text} {characters front piece behind after : List Char} {literal : Span}
  {count : Nat}

private theorem exists_of_mem_importEdits {edit : Span × Text}
    (member : edit ∈ importEdits count script) :
    ∃ statement ∈ Import.all script, statement.span = edit.1 := by
  obtain ⟨statement, found, _, rfl⟩ := exists_of_mem_requireEdits member
  exact ⟨statement, found, rfl⟩

private theorem inside_of_mem_importEdits (string : IsString script) {edit : Span × Text}
    (member : edit ∈ importEdits count script) :
    edit.1.start < edit.1.stop ∧ edit.1.stop ≤ script.length := by
  obtain ⟨statement, found, same⟩ := exists_of_mem_importEdits member
  obtain ⟨whole, forward⟩ := Import.isWhole_of_mem_all string found
  exact same ▸ ⟨forward, whole.inside⟩

private theorem ends_of_importEdits {others : List (Span × Text)} (nonempty : piece ≠ [])
    (known : ∀ edit ∈ others, (edit.1.shift (encode front ++ encode piece).length, edit.2) ∈
      importEdits count (encode (front ++ (piece ++ behind))))
    (replaced : encode after = replace (encode behind) others)
    (ends : behind = [] ∨ ∃ rest, behind = '\n' :: rest) :
    (∀ c ∈ piece.getLast?, c = '\n') ∨ ∀ c ∈ after.head?, c = '\n' := by
  have inside : ∀ edit ∈ others, edit.1.start < (encode behind).length := by
    intro edit member
    obtain ⟨forward, stops⟩ := inside_of_mem_importEdits ⟨_, rfl⟩ (known edit member)
    simp only [Span.shift, encode_append, List.length_append] at forward stops
    omega
  rcases ends with rfl | ⟨rest, rfl⟩
  · have nothing : others = [] := List.eq_nil_iff_forall_not_mem.mpr fun edit member =>
      Nat.not_lt_zero _ (inside edit member)
    rw [nothing] at replaced
    obtain rfl := eq_nil_of_encode (replaced.trans rfl)
    exact .inr (by simp)
  by_cases begins : ∃ edit ∈ others, edit.1.start = 0
  · left
    obtain ⟨edit, member, place⟩ := begins
    obtain ⟨statement, found, same⟩ := exists_of_mem_importEdits (known edit member)
    obtain ⟨above, below, parts, starts, line⟩ := Import.exists_line_of_mem_all found
    rw [same, Span.shift, place, Nat.zero_add, ← encode_append] at starts
    rw [← List.append_assoc] at parts
    obtain rfl := append_inj_of_length parts starts
    rwa [List.getLast?_append_of_ne_nil front nonempty] at line
  · right
    have head := head?_replace fun edit member =>
      ⟨Nat.pos_of_ne_zero fun zero => begins ⟨edit, member, zero⟩, (inside edit member).le⟩
    intro c first
    obtain ⟨tail, rfl⟩ := List.head?_eq_some_iff.mp first
    rw [← replaced] at head
    exact eq_of_head?_encode (b := Byte.newline) rfl (by decide) head

private theorem exists_requireImports (count : Nat)
    (isLiteral : IsLiteral (encode characters) literal)
    (unread : ∀ statement ∈ Import.all (encode characters), literal.Apart statement.span) :
    ∃ front piece behind, (requireImports count (encode characters)).1 =
        encode (front ++ (piece ++ behind)) ∧
      (encode front).length =
        placeAfter (encode characters) (importEdits count (encode characters)) literal.start ∧
      (encode characters).slice literal = encode piece ∧
      (∃ c rest, piece = c :: rest ∧ Delimits c) ∧
      ((∀ c ∈ piece.getLast?, Delimits c ∨ c = '\n') ∨ ∀ c ∈ behind.head?, c = '\n') := by
  obtain ⟨front, piece, behind, rfl, start, stop, cut, opens, ends⟩ := exists_literal isLiteral
  have string : IsString (encode (front ++ (piece ++ behind))) := ⟨_, rfl⟩
  have nonempty : piece ≠ [] := by
    obtain ⟨c, rest, rfl, -⟩ := opens
    exact List.cons_ne_nil c rest
  let edits := importEdits count (encode (front ++ (piece ++ behind)))
  have rising : edits.Pairwise (·.1.stop ≤ ·.1.start) := rising_requireEdits count string
  have apart : ∀ edit ∈ edits, (encode front ++ encode piece).length ≤ edit.1.start ∨
      edit.1.stop ≤ (encode front).length := by
    intro edit member
    obtain ⟨statement, found, same⟩ := exists_of_mem_importEdits member
    rw [← encode_append, start, stop, ← same]
    exact unread statement found
  obtain ⟨others, known, split⟩ := replace_around rising
    (fun edit member => (inside_of_mem_importEdits string member).1.le) (encode behind) apart
  obtain ⟨replaced, shape⟩ := isString_requireImports count string
  have whole : encode replaced =
      replace (encode front) (editsInFront edits (encode front).length) ++ encode piece ++
        replace (encode behind) others := by
    rw [List.append_assoc, ← split, ← encode_append, ← encode_append]
    exact shape.symm
  obtain ⟨before, after, rfl, beforeEq, afterEq⟩ := encode_eq_append_encode nonempty whole
  refine ⟨before, piece, after, by rw [shape, List.append_assoc], ?_, cut, opens, ?_⟩
  · have inFront : (encode (front ++ (piece ++ behind))).take literal.start = encode front := by
      rw [← start, encode_append, List.take_left]
    rw [beforeEq, placeAfter, inFront, ← start]
  · rw [← or_assoc] at ends
    rcases ends with ends | ⟨c, last, delimits⟩
    · exact (ends_of_importEdits nonempty known afterEq ends).imp_left fun line c last =>
        .inr (line c last)
    · refine .inl fun d final => ?_
      obtain rfl := Option.some.inj (last.symm.trans final)
      exact .inl delimits

end Imports

section DefaultExport

variable {body : Text} {literal : Span} {found : Match Unit}

private theorem within_of_comment (isLiteral : IsLiteral body literal)
    (comment : body[literal.start]? = some Byte.slash) {words rest : List Char}
    (masked : body.mask = encode (words ++ rest))
    (dark : ∀ c ∈ rest.head?, CharacterClass.blank c.toNat = false)
    (starts : literal.start ≤ (encode words).length) :
    literal.stop ≤ (encode words).length := by
  by_contra longer
  rw [Nat.not_le] at longer
  obtain ⟨b, reads⟩ : ∃ b, body[(encode words).length]? = some b :=
    ⟨_, List.getElem?_eq_getElem (longer.trans_le isLiteral.stop_le)⟩
  have hidden := isLiteral.mask_of_comment comment starts longer reads
  rw [masked, encode_append, List.getElem?_append_right le_rfl, Nat.sub_self] at hidden
  cases rest with
  | nil => simp at hidden
  | cons c rest =>
    rw [← List.head?_eq_getElem?] at hidden
    have blank : CharacterClass.blank c.toNat = true := by
      unfold Byte.blanked at hidden
      split at hidden
      · rw [eq_of_head?_encode (d := '\n') rfl (by decide) hidden]
        decide
      · rw [eq_of_head?_encode (d := ' ') rfl (by decide) hidden]
        decide
    rw [dark c rfl] at blank
    contradiction

/-- If the words of a default export meet a literal, it is a comment that stands between them or
behind them, or they stand in an interpolation. -/
theorem comment_or_interpolates_of_meets (string : IsString body)
    (present : defaultExport.find? body.mask = some found) (isLiteral : IsLiteral body literal)
    (meets : ¬literal.Apart found.span) :
    body[literal.start]? = some Byte.slash ∧ literal.Within found.span ∨
      Interpolates body literal found.span.start := by
  obtain ⟨before, gap, more, rest, masked, span, blank, others, dark⟩ :=
    exists_of_find?_defaultExport string present
  simp only [Span.Apart, span, not_or, Nat.not_le] at meets
  obtain ⟨reaches, begins⟩ := meets
  have first : body.mask[(encode before).length]? = some 0x65 := by
    rw [masked, List.append_assoc, encode_append, List.getElem?_append_right le_rfl, Nat.sub_self]
    rfl
  obtain ⟨reads, code, free⟩ :=
    code_of_mask first (by decide) (by decide) (by decide) (by decide)
  have worded : ∀ c ∈ "export".toList ++ gap ++ ("default".toList ++ more), ¬Delimits c := by
    refine List.forall_mem_append.mpr ⟨List.forall_mem_append.mpr ⟨not_delimits_of_mem_export, ?_⟩,
      List.forall_mem_append.mpr ⟨?_, ?_⟩⟩
    · exact fun c inside => not_delimits_of_blank (blank c inside)
    · unfold Delimits
      exact forall_mem_of_all (by decide)
    · exact fun c inside => not_delimits_of_blank (others c inside)
  obtain ⟨b, member, opens⟩ := isLiteral.begins.exists_delimiter
  rcases Nat.lt_trichotomy literal.start (encode before).length with later | same | earlier
  · exact .inr (span ▸ (isLiteral.template_of_code later reaches code free).2)
  · rw [same, reads, Option.some.injEq] at opens
    exact absurd member (opens ▸ by decide)
  · obtain ⟨d, delimits, spelled, low⟩ := exists_delimits member
    have comment : b = Byte.slash := by
      by_contra quote
      have shown := isLiteral.begins.mask_eq opens quote
      rw [masked, encode_append, encode_append, List.append_assoc,
        List.getElem?_append_right earlier.le, List.getElem?_append_left] at shown
      · exact worded d ((mem_encode_iff spelled low).mp (List.mem_of_getElem? shown)) delimits
      · rw [encode_append, List.length_append] at begins
        omega
    subst comment
    exact .inl ⟨opens, span ▸ ⟨earlier.le,
      within_of_comment isLiteral opens masked dark begins.le⟩⟩

end DefaultExport

section Kept

variable {block : Text} {literal : Span}

/-- The plain script in which the default export is looked for: with require statements in place of
its imports, and without the word `export` in front of its declarations. -/
def plainBody (script : Text) : Text := dropNamedExports (requireImports 0 script).1

/-- Where a stretch of the plain script has come to when the default export is looked for. -/
def landing (script : Text) (span : Span) : Span :=
  let place := placeAfter script (importEdits 0 script) span.start
  let required := (requireImports 0 script).1
  let start := placeAfter required (exportEdits required) place
  ⟨start, start + (span.stop - span.start)⟩

private theorem exists_plainBody (string : IsString block) (isLiteral : IsLiteral block literal)
    (unread : ∀ statement ∈ Import.all block, literal.Apart statement.span)
    (unlined : exportLine.search (block.slice literal) = []) :
    ∃ front behind, plainBody block = front ++ (block.slice literal ++ behind) ∧
      landing block literal = ⟨front.length, (front ++ block.slice literal).length⟩ := by
  obtain ⟨characters, rfl⟩ := string
  obtain ⟨front, piece, behind, required, place, cut, opens, closes⟩ :=
    exists_requireImports 0 isLiteral unread
  have length : (encode piece).length = literal.stop - literal.start := by
    rw [← cut, slice, List.length_drop, List.length_take_of_le isLiteral.stop_le]
  rw [cut] at unlined ⊢
  let edits := exportEdits (encode (front ++ (piece ++ behind)))
  obtain ⟨rising, ordered⟩ := rising_exportEdits ⟨front ++ (piece ++ behind), rfl⟩
  have apart : ∀ edit ∈ edits, (encode front ++ encode piece).length ≤ edit.1.start ∨
      edit.1.stop ≤ (encode front).length := by
    intro edit member
    obtain ⟨found, searched, rfl⟩ := List.mem_map.mp member
    rw [← encode_append]
    exact apart_of_namedExport opens closes unlined searched
  obtain ⟨others, -, split⟩ := replace_around rising ordered (encode behind) apart
  refine ⟨replace (encode front) (editsInFront edits (encode front).length),
    replace (encode behind) others, ?_, ?_⟩
  · rw [← split, plainBody, required, dropNamedExports_eq, encode_append, encode_append]
  · have inFront : (encode (front ++ (piece ++ behind))).take (encode front).length =
        encode front := by rw [encode_append, List.take_left]
    rw [landing, required, ← place, placeAfter, inFront, ← length, List.length_append]

theorem isString_plainBody (string : IsString block) : IsString (plainBody block) :=
  isString_dropNamedExports (isString_requireImports 0 string)

private theorem infix_optionsPart_or (string : IsString block) {front piece behind : Text}
    (body : plainBody block = front ++ (piece ++ behind)) :
    piece <:+: (optionsPart (some block)).1 ∨
      ∃ found, defaultExport.find? (plainBody block).mask = some found ∧
        ¬Span.Apart ⟨front.length, (front ++ piece).length⟩ found.span := by
  by_cases meets : ∃ found, defaultExport.find? (plainBody block).mask = some found ∧
      ¬Span.Apart ⟨front.length, (front ++ piece).length⟩ found.span
  · exact .inr meets
  left
  have kept : ∀ stored, storeDefaultExport? (plainBody block) = some stored →
      piece <:+: stored := by
    intro stored present
    obtain ⟨found, here, rfl⟩ := Option.map_eq_some_iff.mp present
    have apart : Span.Apart ⟨front.length, (front ++ piece).length⟩ found.span :=
      not_not.mp fun touches => meets ⟨found, here, touches⟩
    have ordered := (isWhole_of_find? (isString_plainBody string) here).ordered
    have spared : ∀ edit ∈ [(found.span, constant optionsName [])],
        (front ++ piece).length ≤ edit.1.start ∨ edit.1.stop ≤ front.length :=
      fun edit member => (List.mem_singleton.mp member) ▸ apart
    obtain ⟨others, -, split⟩ := replace_around (List.pairwise_singleton _ _)
      (fun edit member => (List.mem_singleton.mp member) ▸ ordered) behind spared
    rw [body, split, ← List.append_assoc]
    exact List.infix_append _ _ _
  have inside : piece <:+: plainBody block := by
    rw [body, ← List.append_assoc]
    exact List.infix_append _ _ _
  unfold optionsPart
  dsimp only
  split
  · next stored present => exact (kept stored present).trans (List.infix_append [] stored _)
  · rw [List.append_assoc]
    exact inside.trans (List.infix_append [] (plainBody block) _)

private theorem infix_setupPart (count : Nat) :
    (requireImports count block).1 <:+: setupPart count (some block) := by
  let body := (requireImports count block).1
  have shape : setupPart count (some block) =
      (optionsName ++ ofString ".setup = function setup() \x7b\n") ++ body ++ ([Byte.newline] ++
        (ofString "return " ++ (exposedObject (Declaration.names body) ++
          ofString "\n\x7d\n"))) := by
    unfold setupPart
    dsimp only
    simp only [List.append_assoc]
    rfl
  rw [shape]
  exact List.infix_append _ _ _

/-- A literal of a script that no import is read in place of is kept in the `setup` function. In the
plain script it is kept up to the search for the default export if none of its lines begins with
`export`, and then it stands in the compiled script, unless the words of the default export have
taken its place. If it is still a literal there, it is a comment between or behind these words or a
template in one of whose interpolations they stand. -/
theorem literals_kept {source : String} {script block : Text} {literal : Span}
    (success : compile (ofString source) = .ok script) (isLiteral : IsLiteral block literal)
    (unread : ∀ statement ∈ Import.all block, literal.Apart statement.span) :
    ((Blocks.ofSource (ofString source)).setup = some block →
      block.slice literal <:+: script) ∧
    ((Blocks.ofSource (ofString source)).script = some block →
      exportLine.search (block.slice literal) = [] →
        (plainBody block).slice (landing block literal) = block.slice literal ∧
        (block.slice literal <:+: script ∨
          ∃ found, defaultExport.find? (plainBody block).mask = some found ∧
            ¬(landing block literal).Apart found.span ∧
            (IsLiteral (plainBody block) (landing block literal) →
              (plainBody block)[(landing block literal).start]? = some Byte.slash ∧
                  (landing block literal).Within found.span ∨
                Interpolates (plainBody block) (landing block literal) found.span.start))) := by
  obtain ⟨plain, setup⟩ := isString_scripts (isString_ofString source)
  rw [eq_ofBlocks_of_compile success, ofBlocks_eq, front]
  refine ⟨fun used => ?_, fun used unlined => ?_⟩
  · obtain ⟨characters, rfl⟩ := setup block used
    obtain ⟨before, piece, after, body, -, cut, -⟩ :=
      exists_requireImports (optionsPart (Blocks.ofSource (ofString source)).script).2 isLiteral
        unread
    let count := (optionsPart (Blocks.ofSource (ofString source)).script).2
    have inside : (requireImports count (encode characters)).1 <:+:
        setupPart count (some (encode characters)) := infix_setupPart count
    rw [used, cut]
    rw [body, encode_append, encode_append, ← List.append_assoc] at inside
    refine ((List.infix_append _ _ _).trans inside).trans ?_
    rw [List.append_assoc]
    exact List.infix_append _ _ _
  · have string := plain block used
    obtain ⟨before, behind, body, place⟩ := exists_plainBody string isLiteral unread unlined
    rw [used]
    refine ⟨?_, ?_⟩
    · rw [body, place, ← List.append_assoc]
      exact slice_append behind rfl (by rw [List.length_append])
    rcases infix_optionsPart_or string body with inside | ⟨found, present, meets⟩
    · left
      refine inside.trans ?_
      simp only [List.append_assoc]
      exact List.infix_append [] _ _
    · rw [← place] at meets
      exact .inr ⟨found, present, meets, fun still =>
        comment_or_interpolates_of_meets (isString_plainBody string) present still meets⟩

private theorem compile_of_scripts {source : Text} {plain setup : Option Text}
    (taken : Blocks.ofSource source = ⟨none, plain, setup, none⟩)
    (given : (plain.isNone && setup.isNone) = false) :
    compile source = .ok (ofBlocks ⟨none, plain, setup, none⟩) := by
  rw [compile, taken]
  simp [given]

/-- A template with an exported declaration in a `setup` script, and a string that looks like a
comment behind the words of a default export. -/
theorem literals_kept_in_both_scripts : ∃ script,
    compile (ofString ("<script setup>\nimport 'a'\nf(`\n export let t\n`)\n</script>\n" ++
      "<script>\nexport default ['//']\n</script>")) = .ok script ∧
    ofString "`\n export let t\n`" <:+: script ∧ ofString "'//'" <:+: script := by
  let setup := ofString "import 'a'\nf(`\n export let t\n`)"
  let plain := ofString "export default ['//']"
  have taken : Blocks.ofSource (ofString
      ("<script setup>\nimport 'a'\nf(`\n export let t\n`)\n</script>\n" ++
        "<script>\nexport default ['//']\n</script>")) = ⟨none, some plain, some setup, none⟩ := by
    decide +kernel
  have success := compile_of_scripts taken rfl
  have isTemplate : IsLiteral setup ⟨13, 30⟩ := by decide +kernel
  have isString : IsLiteral plain ⟨16, 20⟩ := by decide +kernel
  have template := literals_kept success isTemplate (by decide +kernel)
  have string := literals_kept success isString (by decide +kernel)
  refine ⟨_, success, template.1 (by rw [taken]), ?_⟩
  refine (string.2 (by rw [taken]) (by decide +kernel)).2.resolve_right ?_
  rintro ⟨found, present, meets, -⟩
  have spared : ∀ found ∈ defaultExport.find? (plainBody plain).mask,
      (landing plain ⟨16, 20⟩).Apart found.span := by decide +kernel
  exact meets (spared found present)

/-- Whether the mask of a script shows the word that an import begins with. -/
def StandsInCode (script : Text) (statement : Import) : Prop :=
  (script.mask.slice statement.span).trimStart.startsWith "import" = true

instance (script : Text) (statement : Import) : Decidable (StandsInCode script statement) :=
  inferInstanceAs (Decidable (_ = _))

/-- Whether a literal outside the imports in the code of a script is missing in what its component
is compiled to. -/
def RewritesLiteral (source : String) (block : Text) (literal : Span) : Prop :=
  ((Blocks.ofSource (ofString source)).setup = some block ∨
      (Blocks.ofSource (ofString source)).script = some block) ∧
    IsLiteral block literal ∧
    (∀ statement ∈ Import.all block, StandsInCode block statement →
      literal.Apart statement.span) ∧
    ∃ script, compile (ofString source) = .ok script ∧ ¬block.slice literal <:+: script

/-- Imports and exported declarations are read in templates, and the words of a default export take
the comment behind them. -/
theorem literals_rewritten :
    RewritesLiteral "<script setup>\nconst s = `\nimport a from 'b'\n`\n</script>"
      (ofString "const s = `\nimport a from 'b'\n`") ⟨10, 31⟩ ∧
    RewritesLiteral "<script>\nconst s = `\nexport const t = 1\n`\n</script>"
      (ofString "const s = `\nexport const t = 1\n`") ⟨10, 32⟩ ∧
    RewritesLiteral "<script>\nexport default /* options */ \x7b\x7d\n</script>"
      (ofString "export default /* options */ \x7b\x7d") ⟨15, 28⟩ := by
  have rewritten {source : String} (plain setup : Option Text) {block : Text} {literal : Span}
      (taken : Blocks.ofSource (ofString source) = ⟨none, plain, setup, none⟩)
      (used : setup = some block ∨ plain = some block)
      (isLiteral : IsLiteral block literal)
      (outside : ∀ statement ∈ Import.all block, StandsInCode block statement →
        literal.Apart statement.span)
      (missing : ¬block.slice literal <:+: ofBlocks ⟨none, plain, setup, none⟩) :
      RewritesLiteral source block literal := by
    have given : (plain.isNone && setup.isNone) = false := by
      rcases used with rfl | rfl <;> simp
    exact ⟨by rwa [taken], isLiteral, outside, _, compile_of_scripts taken given, missing⟩
  refine ⟨rewritten none _ ?_ (.inl rfl) ?_ ?_ ?_, rewritten _ none ?_ (.inr rfl) ?_ ?_ ?_,
    rewritten _ none ?_ (.inr rfl) ?_ ?_ ?_⟩
  all_goals decide +kernel

end Kept

end ComponentScript

end BareComponent
