import BareComponent.Proofs.Component.ExportWords
import BareComponent.Proofs.Component.ImportParts
import BareComponent.Proofs.Component.Kept
import BareComponent.Proofs.Text.Occurrence

/-! # The default export of a component

The words `export default` are searched in the mask of the plain script, once its imports and its
exported declarations are rewritten, and the first that have white space on both sides of `default`
become the declaration of the options. Words that stand in code are still shown then, unless a
rewriting leads the scanner elsewhere or joins them with what takes the place of an import, so white
space behind `default` decides: where an expression follows without any, the words stay and empty
options are declared behind them.
-/

namespace BareComponent

open Text Pattern Cursor Scanner

namespace ComponentScript

section Moved

variable {text line : Text} {words : Span} {braces : List Nat} {edits : List (Span × Text)}

/-- Whether the words of a default export stand in the code of a text, with a line behind them. -/
structure ExportsAt (text : Text) (words : Span) (braces : List Nat) (line : Text) : Prop where
  has : text.HasExportWords words
  code : stateAt text words.start = ⟨.code, false, braces⟩
  lineEq : text.lineBehind words.stop = line

/-- Whether edits leave the words of a default export with their line in place: each ends in front
of the words, with something between, or begins on a later line. -/
structure Spares (text : Text) (edits : List (Span × Text)) (words : Span) : Prop where
  rising : edits.Pairwise (·.1.stop ≤ ·.1.start)
  whole : ∀ edit ∈ edits, text.IsWhole edit.1
  forward : ∀ edit ∈ edits, edit.1.start < edit.1.stop
  apart : ∀ edit ∈ edits, edit.1.stop < words.start ∨
    ∃ above below, text = above ++ below ∧ IsLines above ∧ words.stop < above.length ∧
      above.length ≤ edit.1.start
  unnoticed : ∀ edit ∈ edits, Unnoticed text edit
  alike : ∀ edit ∈ editsInFront edits words.start, LeavesAlike text edit

/-- Where a stretch of a text stands once the text is replaced, if no edit touches it. -/
def movedBy (text : Text) (edits : List (Span × Text)) (span : Span) : Span :=
  ⟨placeAfter text edits span.start, placeAfter text edits span.start + (span.stop - span.start)⟩

private theorem getLast?_replaced {front behind replaced : List Char}
    (whole : ∀ edit ∈ edits, (encode (front ++ behind)).IsWhole edit.1)
    (earlier : ∀ edit ∈ edits, edit.1.stop < (encode front).length)
    (spelled : encode replaced = replace (encode front) edits) :
    replaced.getLast? = front.getLast? := by
  rcases List.eq_nil_or_concat' front with rfl | ⟨front, c, rfl⟩
  · have nothing : edits = [] := List.eq_nil_iff_forall_not_mem.mpr fun edit member =>
      Nat.not_lt_zero _ (earlier edit member)
    rw [nothing] at spelled
    rw [eq_nil_of_encode (spelled.trans rfl)]
  · have inside : ∀ edit ∈ edits,
        edit.1.start ≤ (encode front).length ∧ edit.1.stop ≤ (encode front).length := by
      intro edit member
      obtain ⟨first, second, same, length⟩ := (whole edit member).stops.exists_append
      have short := earlier edit member
      rw [← length] at short
      obtain ⟨more, split, -⟩ := exists_append_of_length_le same.symm short.le
      obtain ⟨more, last, rfl⟩ := (List.eq_nil_or_concat' more).resolve_left (by
        rintro rfl
        rw [split, List.append_nil] at short
        exact Nat.lt_irrefl _ short)
      rw [← List.append_assoc] at split
      obtain ⟨rfl, -⟩ := List.append_inj' split rfl
      have stops : edit.1.stop ≤ (encode (first ++ more)).length := by
        rw [← length, encode_append, List.length_append]
        exact Nat.le_add_right _ _
      exact ⟨(whole edit member).ordered.trans stops, stops⟩
    have parts := replace_append (encode [c]) inside []
    rw [shiftEdits, List.map_nil, List.append_nil, ← encode_append, ← spelled] at parts
    obtain ⟨above, below, rfl, -, belowEq⟩ := encode_eq_append_encode (List.cons_ne_nil c [])
      (parts.trans (List.append_nil _).symm)
    rw [eq_nil_of_encode belowEq, List.append_nil, List.getLast?_concat, List.getLast?_concat]

private theorem head?_of_line {first second : List Char} {rest others : Text}
    (firstEq : encode first = line ++ rest) (secondEq : encode second = line ++ others)
    (last : Byte.newline ∉ line → rest = [] ∧ others = []) : first.head? = second.head? := by
  by_cases closed : Byte.newline ∈ line
  · obtain ⟨front, behind, rfl⟩ := List.append_of_mem closed
    rw [List.append_assoc, List.cons_append] at firstEq secondEq
    obtain ⟨above, c, below, rfl, aboveEq, spelled, -⟩ :=
      encode_eq_append_cons firstEq (by decide)
    obtain ⟨other, d, tail, rfl, otherEq, otherSpelled, -⟩ :=
      encode_eq_append_cons secondEq (by decide)
    obtain rfl := encode_injective (aboveEq.trans otherEq.symm)
    obtain rfl := encodeChar_injective (spelled.trans otherSpelled.symm)
    cases above <;> rfl
  · obtain ⟨rfl, rfl⟩ := last closed
    rw [encode_injective (firstEq.trans secondEq.symm)]

private theorem Spares.stop_lt (spares : Spares text edits words)
    (ordered : words.start ≤ words.stop) {edit : Span × Text}
    (member : edit ∈ editsInFront edits words.start) : edit.1.stop < words.start := by
  have known : edit ∈ edits := (List.takeWhile_sublist _).mem member
  have stops : edit.1.stop ≤ words.start := by simpa using List.mem_takeWhile_imp member
  have forward := spares.forward edit known
  rcases spares.apart edit known with earlier | ⟨above, -, -, -, later, starts⟩
  · exact earlier
  · omega

private theorem Spares.apart_line (spares : Spares text edits words)
    (inside : words.stop ≤ text.length) {edit : Span × Text} (member : edit ∈ edits) :
    words.stop + (text.lineBehind words.stop).length ≤ edit.1.start ∨
      edit.1.stop ≤ words.start := by
  rcases spares.apart edit member with earlier | ⟨above, below, same, areLines, later, starts⟩
  · exact .inr earlier.le
  · left
    obtain ⟨rest, split, free, last⟩ := exists_lineBehind text words.stop
    have length : (text.take words.stop).length = words.stop := List.length_take_of_le inside
    have reaches := areLines.length_le (split.symm.trans same) free last (length.symm ▸ later)
    rw [List.length_append, length] at reaches
    exact reaches.trans starts

private theorem Spares.eq_nil_of_shifted {others : List (Span × Text)}
    (spares : Spares text edits words)
    (known : ∀ edit ∈ others, (edit.1.shift text.length, edit.2) ∈ edits) : others = [] := by
  refine List.eq_nil_iff_forall_not_mem.mpr fun edit member => ?_
  have inside := (spares.whole _ (known edit member)).inside
  have forward := spares.forward _ (known edit member)
  simp only [Span.shift] at inside forward
  omega

section Parts

variable {front gap behind : List Char}

private theorem Spares.exists_parts (spares : Spares text edits words)
    (spelled : text = encode (front ++ (exportWords gap ++ behind)))
    (place : words = ⟨(encode front).length, (encode (front ++ exportWords gap)).length⟩)
    (lineEq : text.lineBehind words.stop = line) :
    ∃ rest others,
      text = encode front ++ (encode (exportWords gap) ++ line ++ rest) ∧
      Byte.newline ∉ line.dropLast ∧ (Byte.newline ∉ line → rest = [] ∧ others = []) ∧
      (∀ edit ∈ edits,
        (encode front ++ (encode (exportWords gap) ++ line)).length ≤ edit.1.start ∨
          edit.1.stop ≤ (encode front).length) ∧
      replace text edits = replace (encode front) (editsInFront edits (encode front).length) ++
        encode (exportWords gap) ++ (line ++ others) := by
  obtain ⟨rest, split, free, last⟩ := exists_lineBehind text words.stop
  have inside : words.stop ≤ text.length := by
    rw [spelled, place, ← List.append_assoc, encode_append _ behind, List.length_append]
    exact Nat.le_add_right _ _
  have beside := fun edit (member : edit ∈ edits) => spares.apart_line inside member
  rw [lineEq] at split free last beside
  have frontLength : (encode front ++ encode (exportWords gap)).length = words.stop := by
    rw [← encode_append, place]
  have cut : text = encode front ++ (encode (exportWords gap) ++ line ++ rest) := by
    have inFront : text.take words.stop = encode front ++ encode (exportWords gap) := by
      rw [spelled, ← List.append_assoc, encode_append _ behind, encode_append front,
        ← frontLength, List.take_left]
    rw [split, inFront]
    simp only [List.append_assoc]
  have apart : ∀ edit ∈ edits,
      (encode front ++ (encode (exportWords gap) ++ line)).length ≤ edit.1.start ∨
        edit.1.stop ≤ (encode front).length := by
    intro edit member
    rw [← List.append_assoc, List.length_append, frontLength]
    simpa only [place] using beside edit member
  have ordered : ∀ edit ∈ edits, edit.1.start ≤ edit.1.stop :=
    fun edit member => (spares.forward edit member).le
  obtain ⟨others, known, replaced⟩ := replace_around spares.rising ordered rest apart
  rw [← cut] at replaced
  refine ⟨rest, replace rest others, cut, free, fun absent => ?_, apart, by simp [replaced]⟩
  obtain rfl := last absent
  rw [List.append_nil] at cut
  rw [← cut] at known
  rw [spares.eq_nil_of_shifted known]
  exact ⟨rfl, rfl⟩

end Parts

/-- Edits that spare the words of a default export and leave the scanner alike in front of them only
move them, with the rest of their line. -/
theorem ExportsAt.moved (exports : ExportsAt text words braces line)
    (spares : Spares text edits words) (string : IsString (replace text edits)) :
    ExportsAt (replace text edits) (movedBy text edits words) braces line := by
  obtain ⟨has, code, lineEq⟩ := exports
  have forward := has.getElem?_start.2.le
  obtain ⟨front, gap, behind, rfl, nonempty, blank, edge, ends, place⟩ := has
  obtain ⟨rest, others, cut, free, closed, apart, parts⟩ := spares.exists_parts rfl place lineEq
  have behindEq : encode behind = line ++ rest := by
    rw [encode_append, encode_append, List.append_assoc] at cut
    exact List.append_cancel_left (List.append_cancel_left cut)
  obtain ⟨characters, result⟩ := string
  obtain ⟨above, below, rfl, aboveEq, belowEq⟩ :=
    encode_eq_append_encode (exportWords_ne_nil gap) (result.symm.trans parts)
  rw [List.append_assoc] at result
  have known : (editsInFront edits (encode front).length).Sublist edits :=
    List.takeWhile_sublist _
  obtain rfl := place
  have moved : movedBy (encode (front ++ (exportWords gap ++ behind))) edits
      ⟨(encode front).length, (encode (front ++ exportWords gap)).length⟩ =
        ⟨(encode above).length, (encode (above ++ exportWords gap)).length⟩ := by
    simp only [movedBy, placeAfter, encode_append, List.take_left, List.length_append, aboveEq,
      Nat.add_sub_cancel_left]
  refine ⟨⟨above, gap, below, result, nonempty, blank, ?edge, ?ends, moved⟩, ?code, ?line⟩
  case edge =>
    rw [getLast?_replaced (fun edit member => spares.whole edit (known.mem member))
      (fun edit member => spares.stop_lt forward member) aboveEq]
    exact edge
  case ends =>
    rw [head?_of_line belowEq behindEq fun absent => (closed absent).symm]
    exact ends
  case code =>
    have stays := stateAt_replace spares.rising (fun edit member => (spares.forward edit member).le)
      cut (List.append_ne_nil_of_left_ne_nil (mt eq_nil_of_encode (exportWords_ne_nil gap)) line)
      apart (fun edit member => spares.unnoticed edit (known.mem member)) spares.alike
    exact stays.trans code
  case line =>
    rw [moved, result, ← List.append_assoc, encode_append _ below, belowEq]
    exact lineBehind_append _ free fun absent => (closed absent).2

end Moved

section NamedExports

variable {before after : List Char}

private theorem exists_declaration {span : Span} {next : Cursor}
    (member : (span, next) ∈ namedExport (between before after)) :
    ∃ lead gap c rest, after = lead ++ ("export".toList ++ gap ++ c :: rest) ∧
      (∀ c ∈ before.getLast?, c = '\n') ∧ (∀ c ∈ lead, c ∈ [' ', '\t']) ∧ Blank gap ∧
      c ∈ ['a', 'c', 'l', 'v', 'f'] ∧ span = ⟨(encode (before ++ lead)).length,
        (encode (before ++ lead ++ ("export".toList ++ gap))).length⟩ := by
  obtain ⟨lead, gap, tail, keyword, rfl, line, led, blank, -, place, others⟩ :=
    exists_keyword member
  obtain ⟨_, _, async, others⟩ := mem_bind.mp others
  obtain ⟨_, _, declared, others⟩ := mem_bind.mp others
  obtain ⟨_, _, -, last⟩ := mem_bind.mp others
  obtain ⟨rfl, -⟩ := mem_pure.mp last
  have head : ∃ c ∈ tail.head?, c ∈ ['a', 'c', 'l', 'v', 'f'] := by
    rcases mem_optional.mp async with ⟨_, -, word⟩ | ⟨-, rfl⟩
    · obtain ⟨_, _, word, -⟩ := mem_bind.mp word
      obtain ⟨_, rfl, -⟩ := mem_literal.mp (word : _ ∈ Pattern.literal (encode "async".toList) _)
      exact ⟨'a', rfl, by decide⟩
    · have texts : (["const", "let", "var", "function", "class"] : List Text) =
          ["const".toList, "let".toList, "var".toList, "function".toList, "class".toList].map
            encode := rfl
      obtain ⟨_, listed, spelled⟩ := mem_oneOf.mp declared
      rw [texts] at listed
      obtain ⟨word, known, rfl⟩ := List.mem_map.mp listed
      obtain ⟨_, rfl, -⟩ := mem_literal.mp spelled
      simp only [List.mem_cons, List.not_mem_nil, or_false] at known
      rcases known with rfl | rfl | rfl | rfl | rfl
      · exact ⟨'c', rfl, by decide⟩
      · exact ⟨'l', rfl, by decide⟩
      · exact ⟨'v', rfl, by decide⟩
      · exact ⟨'f', rfl, by decide⟩
      · exact ⟨'c', rfl, by decide⟩
  obtain ⟨c, first, letter⟩ := head
  obtain ⟨rest, rfl⟩ := List.head?_eq_some_iff.mp first
  exact ⟨lead, gap, c, rest, by simp, line, led, blank, letter, place⟩

variable {front behind gap others : List Char} {c : Char}

private theorem not_mem_of_blank {c : Char} (dark : CharacterClass.blank c.toNat = false)
    (blank : Blank gap) : c ∉ gap := by
  intro member
  rw [blank c member] at dark
  contradiction

private theorem keyword_ne_words {rest : List Char} (blank : Blank gap) (otherBlank : Blank others)
    (letter : c ∈ ['a', 'c', 'l', 'v', 'f']) :
    "export".toList ++ gap ++ c :: rest ≠ exportWords others ++ behind := by
  intro same
  have dark : ∀ c ∈ ['a', 'c', 'l', 'v', 'f'], CharacterClass.blank c.toNat = false :=
    forall_mem_of_all (by decide)
  simp only [exportWords_eq, List.append_assoc, List.append_cancel_left_eq] at same
  obtain ⟨-, tails⟩ := append_inj_of_run (fun c : Char => CharacterClass.blank c.toNat) same blank
    otherBlank (head?_outside (dark c letter) rest) (dark_default behind)
  obtain ⟨rfl, -⟩ := List.cons.inj tails
  exact absurd letter (by decide)

private theorem keyword_passed {passed rest : List Char} (blank : Blank gap)
    (letter : c ∈ ['a', 'c', 'l', 'v', 'f']) (nonempty : passed ≠ [])
    (same : "export".toList ++ gap ++ c :: rest = passed ++ (exportWords others ++ behind)) :
    (encode ("export".toList ++ gap)).length < (encode passed).length := by
  by_contra inside
  have noE : 'e' ∉ "xport".toList ++ gap :=
    List.not_mem_append (by decide) (not_mem_of_blank (by decide) blank)
  obtain ⟨more, keyword, reached⟩ := exists_append_of_length_le same.symm (Nat.not_lt.mp inside)
  obtain ⟨d, passed, rfl⟩ := List.exists_cons_of_ne_nil nonempty
  replace keyword : 'e' :: ("xport".toList ++ gap) = d :: (passed ++ more) := keyword
  obtain ⟨-, keyword⟩ := List.cons.inj keyword
  cases more with
  | nil =>
    obtain ⟨rfl, -⟩ := List.cons.inj (reached : 'e' :: _ = c :: rest)
    exact absurd letter (by decide)
  | cons e more =>
    obtain ⟨rfl, -⟩ := List.cons.inj (reached : 'e' :: _ = e :: (more ++ c :: rest))
    exact noE (by rw [keyword]; exact List.mem_append_right passed List.mem_cons_self)

private theorem words_passed {passed rest : List Char} (otherBlank : Blank others)
    (nonempty : passed ≠ [])
    (same : exportWords others ++ behind = passed ++ ("export".toList ++ rest)) :
    (encode (exportWords others)).length ≤ (encode passed).length := by
  by_contra inside
  rw [Nat.not_le] at inside
  have noE : 'e' ∉ "xport".toList ++ others :=
    List.not_mem_append (by decide) (not_mem_of_blank (by decide) otherBlank)
  have last : (exportWords others).getLast? = some 't' := by
    rw [exportWords_eq, ← List.append_assoc, List.getLast?_append]
    rfl
  obtain ⟨more, words, reached⟩ := exists_append_of_length_le same.symm inside.le
  have begins : "export".toList ++ rest = 'e' :: 'x' :: ("port".toList ++ rest) := rfl
  rw [begins] at reached
  rcases more with _ | ⟨e, _ | ⟨x, more⟩⟩
  · rw [words, List.append_nil] at inside
    exact Nat.lt_irrefl _ inside
  · obtain ⟨rfl, -⟩ := List.cons.inj reached
    rw [words, List.getLast?_concat] at last
    exact absurd last (by decide)
  · obtain ⟨rfl, tails⟩ := List.cons.inj reached
    obtain ⟨rfl, -⟩ := List.cons.inj tails
    obtain ⟨d, passed, rfl⟩ := List.exists_cons_of_ne_nil nonempty
    have shape : exportWords others = 'e' :: ("xport".toList ++ others ++ "default".toList) :=
      congrArg ('e' :: ·) (List.append_assoc ..).symm
    rw [shape] at words
    have occurs : ['e', 'x'] <:+: "xport".toList ++ others ++ "default".toList :=
      ⟨passed, more, by rw [(List.cons.inj words).2, List.append_assoc]; rfl⟩
    have later : ['e', 'x'] <:+: "default".toList := (cons_infix_append_iff noE).mp occurs
    exact absurd later (by decide +kernel)

private theorem apart_of_keyword {rest : List Char} (blank : Blank gap) (otherBlank : Blank others)
    (letter : c ∈ ['a', 'c', 'l', 'v', 'f'])
    (same : before ++ ("export".toList ++ gap ++ c :: rest) =
      front ++ (exportWords others ++ behind)) :
    (encode (before ++ ("export".toList ++ gap))).length < (encode front).length ∨
      (encode (front ++ exportWords others)).length ≤ (encode before).length := by
  have apartHere := @keyword_ne_words behind gap others c rest blank otherBlank letter
  rcases List.append_eq_append_iff.mp same with ⟨passed, rfl, keyword⟩ | ⟨passed, rfl, words⟩
  · have nonempty : passed ≠ [] := by
      rintro rfl
      exact apartHere keyword
    left
    rw [encode_append, encode_append before, List.length_append, List.length_append]
    exact Nat.add_lt_add_left (keyword_passed blank letter nonempty keyword) _
  · have nonempty : passed ≠ [] := by
      rintro rfl
      exact apartHere words.symm
    right
    rw [List.append_assoc] at words
    rw [encode_append, encode_append front, List.length_append, List.length_append]
    exact Nat.add_le_add_left (words_passed otherBlank nonempty words) _

private theorem stop_lt_of_line {text above lead rest : Text} {words : Span}
    (has : text.HasExportWords words) (spelled : text = above ++ (lead ++ rest))
    (whole : IsLines above) (blank : ∀ b ∈ lead, b ≠ 0x74)
    (reaches : words.stop ≤ (above ++ lead).length) : words.stop < above.length := by
  by_contra passed
  rw [Nat.not_lt] at passed
  have last := has.getLast?_take
  rw [spelled, ← List.append_assoc, List.take_append_of_le_length reaches, List.take_append,
    List.take_of_length_le passed] at last
  rcases List.eq_nil_or_concat' (lead.take (words.stop - above.length)) with
    nothing | ⟨_, b, shape⟩
  · rw [nothing, List.append_nil] at last
    obtain rfl | ⟨others, rfl⟩ := whole.eq_nil_or_exists
    · simp at last
    · rw [List.getLast?_concat] at last
      exact absurd last (by decide)
  · rw [shape, ← List.append_assoc, List.getLast?_concat] at last
    have member : b ∈ lead := List.mem_of_mem_take (shape ▸ List.mem_append_right _ (by simp))
    exact blank b member (Option.some.inj last)

private theorem blind_of_indent {lead : List Char} (line : ∀ c ∈ before.getLast?, c = '\n')
    (led : ∀ c ∈ lead, c ∈ [' ', '\t']) :
    ∀ b ∈ (encode (before ++ lead)).getLast?, Blind b := by
  intro b last
  rcases List.eq_nil_or_concat' (before ++ lead) with nothing | ⟨others, d, shape⟩
  · simp [nothing] at last
  · have known : d = '\n' ∨ d = ' ' ∨ d = '\t' := by
      rcases List.eq_nil_or_concat' lead with rfl | ⟨lead, e, rfl⟩
      · rw [List.append_nil] at shape
        exact .inl (line d (shape ▸ List.getLast?_concat))
      · rw [← List.append_assoc] at shape
        obtain ⟨-, ends⟩ := List.append_inj' shape rfl
        obtain ⟨rfl, -⟩ := List.cons.inj ends
        exact .inr (List.mem_pair.mp (led e (by simp)))
    rw [shape, encode_append] at last
    rcases known with rfl | rfl | rfl
    all_goals
      obtain rfl := Option.some.inj (List.getLast?_concat.symm.trans last)
      decide

private theorem spares_exportEdits {text : Text} {words : Span} (string : IsString text)
    (has : text.HasExportWords words)
    (alike : ∀ edit ∈ editsInFront (exportEdits text) words.start, LeavesAlike text edit) :
    Spares text (exportEdits text) words := by
  obtain ⟨characters, rfl⟩ := string
  have found : ∀ edit ∈ exportEdits (encode characters), ∃ before lead gap c rest,
      characters = before ++ lead ++ ("export".toList ++ gap ++ c :: rest) ∧
        (∀ c ∈ before.getLast?, c = '\n') ∧ (∀ c ∈ lead, c ∈ [' ', '\t']) ∧ Blank gap ∧
        c ∈ ['a', 'c', 'l', 'v', 'f'] ∧ edit = (⟨(encode (before ++ lead)).length,
          (encode (before ++ lead ++ ("export".toList ++ gap))).length⟩, []) := by
    intro edit member
    obtain ⟨found, searched, rfl⟩ := List.mem_map.mp member
    obtain ⟨before, after, rfl, here⟩ := exists_of_mem_search searched
    obtain ⟨next, matched, -⟩ := exists_of_matchAt? here
    obtain ⟨lead, gap, c, rest, rfl, line, led, blank, letter, value⟩ := exists_declaration matched
    exact ⟨before, lead, gap, c, rest, by simp, line, led, blank, letter, by rw [value]⟩
  obtain ⟨rising, -⟩ := rising_exportEdits ⟨characters, rfl⟩
  obtain ⟨-, whole⟩ := rising_namedExport ⟨characters, rfl⟩
  refine ⟨rising, fun edit member => ?whole, fun edit member => ?forward, fun edit member => ?apart,
    fun edit member => ?unnoticed, alike⟩
  case whole =>
    obtain ⟨found, searched, rfl⟩ := List.mem_map.mp member
    exact whole found searched
  all_goals
    obtain ⟨before, lead, gap, c, rest, rfl, line, led, blank, letter, rfl⟩ := found edit member
  case forward =>
    have keyword : 0 < (encode ("export".toList ++ gap)).length :=
      List.length_pos_iff.mpr (mt eq_nil_of_encode (List.cons_ne_nil 'e' _))
    rw [encode_append (before ++ lead), List.length_append]
    exact Nat.lt_add_of_pos_right keyword
  case apart =>
    obtain ⟨front, others, behind, same, -, otherBlank, -, -, rfl⟩ := id has
    rcases apart_of_keyword blank otherBlank letter (encode_injective same) with earlier | later
    · exact .inl earlier
    · have noT : ∀ b ∈ encode lead, b ≠ 0x74 := by
        rintro b inside rfl
        exact absurd (led 't' ((mem_encode_iff rfl (by decide)).mp inside)) (by decide)
      have spelled : encode (before ++ lead ++ ("export".toList ++ gap ++ c :: rest)) =
          encode before ++ (encode lead ++ encode ("export".toList ++ gap ++ c :: rest)) := by
        rw [encode_append, encode_append, List.append_assoc]
      have starts : (encode before).length ≤ (encode (before ++ lead)).length := by
        rw [encode_append, List.length_append]
        exact Nat.le_add_right _ _
      refine .inr ⟨_, _, spelled, isLines_encode line, ?_, starts⟩
      exact stop_lt_of_line has spelled (isLines_encode line) noT (encode_append .. ▸ later)
  case unnoticed =>
    refine ⟨fun b last => ?_, fun b last => absurd last (by simp)⟩
    have inFront : (encode (before ++ lead ++ ("export".toList ++ gap ++ c :: rest))).take
        (encode (before ++ lead)).length = encode (before ++ lead) := by
      rw [encode_append (before ++ lead), List.take_left]
    exact blind_of_indent line led b (inFront ▸ last)

end NamedExports

private theorem spares_importEdits {text : Text} {words : Span} (string : IsString text)
    (has : text.HasExportWords words)
    (apart : ∀ statement ∈ Import.all text,
      statement.span.stop < words.start ∨ words.stop ≤ statement.span.start)
    (alike : ∀ edit ∈ editsInFront (importEdits 0 text) words.start, LeavesAlike text edit) :
    Spares text (importEdits 0 text) words := by
  refine ⟨rising_requireEdits 0 string, fun edit member => ?whole, fun edit member => ?forward,
    fun edit member => ?apart, fun edit member => ?unnoticed, alike⟩
  all_goals obtain ⟨statement, found, count, rfl⟩ := exists_of_mem_requireEdits member
  case whole => exact (Import.isWhole_of_mem_all string found).1
  case forward => exact (Import.isWhole_of_mem_all string found).2
  case unnoticed => exact unnoticed_of_mem_all string found count
  case apart =>
    refine (apart statement found).imp_right fun later => ?_
    obtain ⟨before, front, last, after, split, whole, -, span⟩ := Import.exists_bytes string found
    rw [span] at later ⊢
    refine ⟨before, _, split, whole, ?_, Nat.le_refl _⟩
    exact @stop_lt_of_line _ _ [] _ _ has split whole (by simp) (by simpa using later)

section Main

private theorem getElem?_of_mask {text : Text} {words : Span}
    (has : text.mask.HasExportWords words) : text[words.start]? = some 0x65 :=
  (keepsWords_mask text).spelled _ 0x65 has.getElem?_start.1 (by decide)

variable {blocks : Blocks} {script block body : Text} {words : Span}

/-- What stands in a compiled script behind the part that declares the options. -/
def behindOptions (blocks : Blocks) : Text :=
  setupPart (optionsPart blocks.script).2 blocks.setup ++ templatePart blocks.template ++ returnLine

/-- What is compiled where some words of the plain script, with the white space behind them, become
the declaration of the options. -/
def storedAt (blocks : Blocks) (body : Text) (words : Span) : Text :=
  body.take words.start ++
    (constant optionsName (body.drop (words.stop + body.mask.blanksAt words.stop)) ++
      (Byte.newline :: behindOptions blocks))

/-- What is compiled where no words become the declaration of the options: empty options are
declared behind the plain script. -/
def storedNowhere (blocks : Blocks) (body : Text) : Text :=
  body ++ (Byte.newline :: emptyOptions ++ behindOptions blocks)

private theorem ofBlocks_of_find?_eq_some (used : blocks.script = some block) {found : Match Unit}
    (present : defaultExport.find? (plainBody block).mask = some found) :
    ofBlocks blocks = (plainBody block).take found.span.start ++
      (constant optionsName ((plainBody block).drop found.span.stop) ++
        (Byte.newline :: behindOptions blocks)) := by
  have stored : (optionsPart blocks.script).1 = replace (plainBody block)
      [(found.span, constant optionsName [])] ++ [Byte.newline] := by
    rw [used]
    unfold optionsPart storeDefaultExport?
    dsimp only
    rw [← plainBody, present]
    rfl
  rw [ofBlocks_eq, front, stored]
  simp [behindOptions, replace, replaceFrom, slice, constant]

private theorem ofBlocks_of_find?_eq_none (used : blocks.script = some block)
    (absent : defaultExport.find? (plainBody block).mask = none) :
    ofBlocks blocks = storedNowhere blocks (plainBody block) := by
  have stored : (optionsPart blocks.script).1 =
      plainBody block ++ [Byte.newline] ++ emptyOptions := by
    rw [used]
    unfold optionsPart storeDefaultExport?
    dsimp only
    rw [← plainBody, absent]
    rfl
  rw [ofBlocks_eq, front, stored]
  simp [behindOptions, storedNowhere]

private theorem storedAt_ne (has : body.mask.HasExportWords words) {stored : Text}
    (kept : stored[words.start]? = body[words.start]?) : stored ≠ storedAt blocks body words := by
  rintro rfl
  have here := getElem?_of_mask has
  have inside : words.start ≤ body.length := (List.getElem?_eq_some_iff.mp here).1.le
  have length : (body.take words.start).length = words.start := List.length_take_of_le inside
  obtain ⟨others, opening⟩ : ∃ others, ofString "const " = 0x63 :: others :=
    ⟨ofString "onst ", by decide +kernel⟩
  rw [here, storedAt, List.getElem?_append_right length.le, length, Nat.sub_self, constant,
    opening] at kept
  exact absurd (Option.some.inj kept) (by decide)

private theorem start_le_of_storedAt {others : Span} (has : body.mask.HasExportWords words)
    (same : storedAt blocks body others = storedAt blocks body words) :
    others.start ≤ words.start := by
  by_contra later
  rw [Nat.not_le] at later
  refine storedAt_ne has ?_ same
  have inside : words.start < body.length :=
    (List.getElem?_eq_some_iff.mp (getElem?_of_mask has)).1
  rw [storedAt, List.getElem?_append_left, List.getElem?_take_of_lt later]
  rw [List.length_take]
  exact Nat.lt_min.mpr ⟨later, inside⟩

private theorem ofBlocks_eq_storedAt_iff (used : blocks.script = some block)
    (string : IsString (plainBody block)) (has : (plainBody block).mask.HasExportWords words) :
    ofBlocks blocks = storedAt blocks (plainBody block) words ↔
      IsFirstExport (plainBody block).mask words := by
  obtain ⟨characters, masked⟩ := string.aligned.maskIsString
  cases found : defaultExport.find? (plainBody block).mask with
  | none =>
    rw [ofBlocks_of_find?_eq_none used found]
    constructor
    · intro same
      have inside : words.start < (plainBody block).length :=
        (List.getElem?_eq_some_iff.mp (getElem?_of_mask has)).1
      exact absurd same (storedAt_ne has (by rw [storedNowhere, List.getElem?_append_left inside]))
    · intro first
      rw [masked] at found first
      exact absurd (blanksAt_eq_zero_of_find?_eq_none found first.has) first.spaced.ne'
  | some here =>
    rw [masked] at found
    obtain ⟨others, first, span⟩ := exists_isFirstExport_of_find? found
    rw [← masked] at found first span
    have stored : ofBlocks blocks = storedAt blocks (plainBody block) others := by
      rw [ofBlocks_of_find?_eq_some used found, span, storedAt]
    rw [stored]
    constructor
    · intro same
      obtain rfl : others = words := first.has.eq_of_start has
        (Nat.le_antisymm (start_le_of_storedAt has same) (start_le_of_storedAt first.has same.symm))
      exact first
    · intro firstHere
      rw [first.has.eq_of_start has (Nat.le_antisymm
        (first.first words has firstHere.spaced) (firstHere.first others first.has first.spaced))]

/-- Whether what is done to a plain script before its default export is searched leaves some words
of it alone: no import touches them, and neither what takes the place of imports in front of them
nor the removal of `export` from declarations there leads the scanner elsewhere. -/
structure Undisturbed (script : Text) (words : Span) : Prop where
  apart : ∀ statement ∈ Import.all script,
    statement.span.stop < words.start ∨ words.stop ≤ statement.span.start
  importsAlike : ∀ edit ∈ editsInFront (importEdits 0 script) words.start, LeavesAlike script edit
  exportsAlike :
    ∀ edit ∈ editsInFront (exportEdits (requireImports 0 script).1)
        (placeAfter script (importEdits 0 script) words.start),
      LeavesAlike (requireImports 0 script).1 edit

private theorem exportsAt_landing {line : Text} {braces : List Nat} (string : IsString block)
    (exports : ExportsAt block words braces line) (undisturbed : Undisturbed block words) :
    ExportsAt (plainBody block) (landing block words) braces line := by
  have required := exports.moved
    (spares_importEdits string exports.has undisturbed.apart undisturbed.importsAlike)
    (isString_requireImports 0 string)
  have moved := required.moved
    (spares_exportEdits (isString_requireImports 0 string) required.has undisturbed.exportsAlike)
    (isString_plainBody string)
  have span : landing block words =
      movedBy (requireImports 0 block).1 (exportEdits (requireImports 0 block).1)
        (movedBy block (importEdits 0 block) words) := by
    simp only [landing, movedBy, Nat.add_sub_cancel_left]
  rw [span]
  exact moved

/-- Of the words of a default export that are shown when it is searched, those become the
declaration of the options that are the first with white space behind them. Where there are none,
the plain script is kept and empty options are declared. The words that stand in the code of the
plain script are shown then, unless they are disturbed, with the same line behind them and with
white space there if there was some. -/
theorem default_export_stored {source : String}
    (success : compile (ofString source) = .ok script)
    (used : (Blocks.ofSource (ofString source)).script = some block) :
    (∀ words, (plainBody block).mask.HasExportWords words →
      (script = storedAt (Blocks.ofSource (ofString source)) (plainBody block) words ↔
        IsFirstExport (plainBody block).mask words)) ∧
    ((∀ words, (plainBody block).mask.HasExportWords words →
        (plainBody block).mask.blanksAt words.stop = 0) →
      script = storedNowhere (Blocks.ofSource (ofString source)) (plainBody block)) ∧
    ∀ words, block.HasExportWords words → block.mask.slice words = block.slice words →
      Undisturbed block words →
        (plainBody block).HasExportWords (landing block words) ∧
        (plainBody block).mask.HasExportWords (landing block words) ∧
        (plainBody block).lineBehind (landing block words).stop = block.lineBehind words.stop ∧
        (0 < (plainBody block).mask.blanksAt (landing block words).stop ↔
          0 < block.mask.blanksAt words.stop) := by
  have string : IsString block := (isString_scripts (isString_ofString source)).1 block used
  have bodyString := isString_plainBody string
  rw [eq_ofBlocks_of_compile success]
  refine ⟨fun words has => ofBlocks_eq_storedAt_iff used bodyString has, fun absent => ?nowhere,
    fun words has shown undisturbed => ?landed⟩
  case nowhere =>
    refine ofBlocks_of_find?_eq_none used
      (Option.eq_none_iff_forall_ne_some.mpr fun found present => ?_)
    obtain ⟨characters, spelled⟩ := bodyString.aligned.maskIsString
    rw [spelled] at present
    obtain ⟨words, first, -⟩ := exists_isFirstExport_of_find? present
    rw [← spelled] at first
    exact first.spaced.ne' (absent words first.has)
  case landed =>
    obtain ⟨here, forward⟩ := has.getElem?_start
    have visible : block.mask[words.start]? = some 0x65 := by
      have first := congrArg (·[0]?) shown
      simpa [slice, List.getElem?_take_of_lt forward, here] using first
    obtain ⟨-, mode, free⟩ := code_of_inName visible (by decide)
    have code : stateAt block words.start = ⟨.code, false, (stateAt block words.start).braces⟩ := by
      rw [← mode, ← free]
    have landed := exportsAt_landing string ⟨has, code, rfl⟩ undisturbed
    refine ⟨landed.has, (mask_of_hasExportWords landed.has landed.code).1, landed.lineEq, ?_⟩
    rw [blanksAt_mask_pos_iff landed.has landed.code, blanksAt_mask_pos_iff has code,
      landed.lineEq]

/-- An import and an exported declaration in front of a default export on two lines. -/
private def twoLineExport : String := "import a from 'b'\nexport let c\nexport\n  default [a]"

/-- The words on two lines have moved here, and they become the declaration of the options. -/
theorem default_export_stored_over_lines :
    compile (ofString ("<script>" ++ twoLineExport ++ "</script>")) = .ok
        (ofString ("const a = require('b')\nlet c\nconst __component__ = [a]\n" ++
          "return __component__;")) ∧
      IsFirstExport (plainBody (ofString twoLineExport)).mask
        (landing (ofString twoLineExport) ⟨31, 47⟩) := by
  have success : compile (ofString ("<script>" ++ twoLineExport ++ "</script>")) = .ok
      (ofString ("const a = require('b')\nlet c\nconst __component__ = [a]\n" ++
        "return __component__;")) := by decide +kernel
  have used : (Blocks.ofSource (ofString ("<script>" ++ twoLineExport ++ "</script>"))).script =
      some (ofString twoLineExport) := by decide +kernel
  have has : (ofString twoLineExport).HasExportWords ⟨31, 47⟩ :=
    ⟨"import a from 'b'\nexport let c\n".toList, "\n  ".toList, " [a]".toList,
      by decide +kernel, by decide, by decide, by decide, by decide, by decide +kernel⟩
  have imported : Import.all (ofString twoLineExport) =
      [⟨⟨0, 17⟩, some "a", none, [], "b", false⟩] := by decide +kernel
  have code : ∀ statement ∈ Import.all (ofString twoLineExport),
      statement ∈ Import.all (ofString twoLineExport) ∧
        InCode (ofString twoLineExport) statement := by
    rw [imported, List.forall_mem_singleton]
    exact ⟨List.mem_cons_self, by decide +kernel⟩
  have alike := leavesAlike_requireEdits (isString_ofString twoLineExport) code 0
  have undisturbed : Undisturbed (ofString twoLineExport) ⟨31, 47⟩ :=
    ⟨by decide +kernel, fun edit member => alike edit (List.takeWhile_subset _ member),
      by decide +kernel⟩
  obtain ⟨stored, -, landed⟩ := default_export_stored success used
  obtain ⟨-, masked, -⟩ := landed _ has (by decide +kernel) undisturbed
  exact ⟨success, (stored _ masked).mp (by decide +kernel)⟩

/-- Whether each default export in the code of the plain script becomes the declaration of the
options. -/
def StoresDefaults (source : String) : Prop :=
  ∀ script block words, compile (ofString source) = .ok script →
    (Blocks.ofSource (ofString source)).script = some block → block.HasExportWords words →
      block.mask.slice words = block.slice words →
        script = storedAt (Blocks.ofSource (ofString source)) (plainBody block)
          (landing block words)

/-- Where the exported value stands directly behind `default`, the words are kept and empty options
are declared. -/
theorem unspaced_default_export_kept :
    compile (ofString "<script>\nexport default\x7b a: 1 \x7d\n</script>") =
        .ok (ofString ("export default\x7b a: 1 \x7d\n" ++
          "const __component__ = \x7b\x7d\nreturn __component__;")) ∧
      ¬StoresDefaults "<script>\nexport default\x7b a: 1 \x7d\n</script>" := by
  have success : compile (ofString "<script>\nexport default\x7b a: 1 \x7d\n</script>") =
      .ok (ofString ("export default\x7b a: 1 \x7d\n" ++
        "const __component__ = \x7b\x7d\nreturn __component__;")) := by
    decide +kernel
  refine ⟨success, fun stores => ?_⟩
  have has : (ofString "export default\x7b a: 1 \x7d").HasExportWords ⟨0, 14⟩ :=
    ⟨[], [' '], "\x7b a: 1 \x7d".toList, by decide +kernel, by decide, by decide, by decide,
      by decide, by decide +kernel⟩
  have stored := stores _ _ _ success (by decide +kernel) has (by decide +kernel)
  exact absurd stored (by decide +kernel)

end Main

end ComponentScript

end BareComponent
