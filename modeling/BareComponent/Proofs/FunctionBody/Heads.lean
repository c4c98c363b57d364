import BareComponent.Proofs.FunctionBody.Around
import BareComponent.Proofs.FunctionBody.Openings

/-! # Functions found in a larger text

The beginnings of functions that are found in a text are found in a larger one that has a newline in
front of it. Only a match of the word `function` may begin in the front and swallow one; then no
parenthesis stands between both beginnings, and both lead to the same body.
-/

namespace BareComponent.FunctionBody

open Text Pattern Cursor LocalNames

section Patterns

variable {frame : Frame}

theorem outer_functionHead (closing : frame.closing = some '(')
    (seam : isWord frame.front.getLast? = false) :
    Outer frame id functionHead functionHead := by
  have outside {property : Char → Prop} (holds : property '(') : ∀ c ∈ frame.closing, property c :=
    Frame.forall_closing closing holds
  have blanks : Inner frame id Pattern.blanks Pattern.blanks := Inner.run (outside (by decide))
  have name : Inner frame id Pattern.name Pattern.name := Inner.name (outside (by decide))
  have asterisk : Inner frame id (Pattern.literal "*") (Pattern.literal "*") :=
    Inner.literal ['*'] (outside (by decide))
  have word : Inner frame id (Pattern.literal "function") (Pattern.literal "function") :=
    Inner.literal "function".toList (outside (by decide))
  exact Outer.bind (Inner.wordBoundary seam) fun _ => Outer.bind word fun _ =>
    Outer.bind (Inner.wordBoundary seam) fun _ => Outer.bind blanks fun _ =>
      Outer.bind asterisk.optional fun _ => Outer.bind blanks fun _ =>
        Outer.bind name.optional fun _ => Outer.bind blanks fun _ =>
          Outer.literal (Frame.ends_singleton closing)

theorem outer_nameUpTo {c : Char} (closing : frame.closing = some c)
    (outside : CharacterClass.wordOrDollar c.toNat = false)
    (dark : CharacterClass.blank c.toNat = false) :
    Outer frame (Span.shift · frame.offset) (nameUpTo c) (nameUpTo c) :=
  Outer.bind (Inner.name (Frame.forall_closing closing outside)).spanned fun name =>
    Outer.bind (Inner.run (Frame.forall_closing closing dark)) fun _ =>
      (Outer.literal (Frame.ends_singleton closing)).andPure _ name

theorem outer_methodHead (closing : frame.closing = some '(') :
    Outer frame (Span.shift · frame.offset) methodHead methodHead :=
  outer_nameUpTo closing (by decide) (by decide)

theorem outer_arrow (closing : frame.closing = some '>') :
    Outer frame id (Pattern.literal "=>") (Pattern.literal "=>") := by
  have ends : frame.Ends ['=', '>'] := ⟨['='], '>', closing, rfl, by decide⟩
  exact Outer.literal ends

end Patterns

section WordInFront

/-- Whether some characters end with the word `function`, blanks allowed behind it. -/
def EndsInFunction (characters : List Char) : Prop :=
  ∃ front blanks, characters = front ++ "function".toList ++ blanks ∧ Blank blanks

theorem endsWith_encode_iff {characters needle : List Char} :
    (encode characters).endsWith (encode needle) = true ↔ needle <:+ characters := by
  have reversed : (encode characters).endsWith (encode needle) = true ↔
      ∃ front, encode characters = front ++ encode needle := by
    rw [endsWith, startsWith_iff]
    constructor
    · rintro ⟨rest, split⟩
      exact ⟨rest.reverse, by simpa using congrArg List.reverse split⟩
    · rintro ⟨front, split⟩
      exact ⟨front.reverse, by simp [split]⟩
  rw [reversed]
  constructor
  · rintro ⟨front, split⟩
    cases needle with
    | nil => exact List.nil_suffix
    | cons c needle =>
      obtain ⟨lead, tail, shape, begins, -⟩ := encodeChar_eq_cons c
      rw [encode_cons, shape, List.cons_append] at split
      obtain ⟨first, second, rfl, -, secondEq⟩ := encode_eq_append_of_begins split begins
      have same : encode second = encode (c :: needle) := by simp [secondEq, shape]
      exact ⟨first, by rw [encode_injective same]⟩
  · rintro ⟨front, rfl⟩
    exact ⟨encode front, encode_append front needle⟩

theorem rdropWhile_endsInFunction {front blanks : List Char} (blank : Blank blanks) :
    (front ++ "function".toList ++ blanks).rdropWhile (CharacterClass.blank ·.toNat) =
      front ++ "function".toList := by
  have trails : ∀ c ∈ blanks.reverse, CharacterClass.blank c.toNat = true := fun c member =>
    blank c (List.mem_reverse.mp member)
  have same : (front ++ "function".toList ++ blanks).rdropWhile (CharacterClass.blank ·.toNat) =
      (front ++ "function".toList).rdropWhile (CharacterClass.blank ·.toNat) := by
    rw [List.rdropWhile, List.reverse_append, List.dropWhile_append_of_pos trails,
      ← List.rdropWhile]
  rw [same, List.rdropWhile_eq_self_iff]
  intro nonempty
  rw [List.getLast_append_of_ne_nil _ (by decide)]
  decide

/-- What the search for methods tests of the text in front of a name is whether it ends in the word
of a function, up to blanks. -/
theorem trimEnd_endsWith_iff {characters : List Char} :
    (encode characters).trimEnd.endsWith "function" = true ↔ EndsInFunction characters := by
  rw [trimEnd_encode, ofString_eq, endsWith_encode_iff]
  constructor
  · rintro ⟨front, shape⟩
    refine ⟨front, characters.rtakeWhile (CharacterClass.blank ·.toNat), ?_, fun c member => by
      simpa using List.mem_rtakeWhile_imp member⟩
    rw [shape, List.rdropWhile_append_rtakeWhile]
  · rintro ⟨front, blanks, rfl, blank⟩
    rw [rdropWhile_endsInFunction blank]
    exact List.suffix_append _ _

theorem EndsInFunction.trim_endsWith {characters : List Char} (ends : EndsInFunction characters) :
    (encode characters).trim.endsWith "function" = true := by
  obtain ⟨front, blanks, rfl, blank⟩ := ends
  have dark : ("function".toList ++ blanks).dropWhile (CharacterClass.blank ·.toNat) =
      "function".toList ++ blanks := rfl
  rw [trim, trimStart_encode, trimEnd_endsWith_iff, List.append_assoc, List.dropWhile_append, dark]
  split
  · exact ⟨[], blanks, rfl, blank⟩
  · exact ⟨_, blanks, (List.append_assoc ..).symm, blank⟩

/-- What is not empty and ends a line ends with its newline. -/
theorem exists_of_line_suffix {above first second : List Char}
    (split : above ++ ['\n'] = first ++ second) (nonempty : second ≠ []) :
    ∃ last, second = last ++ ['\n'] ∧ above = first ++ last := by
  obtain ⟨last, c, rfl⟩ := (List.eq_nil_or_concat' second).resolve_left nonempty
  rw [← List.append_assoc] at split
  obtain ⟨rfl, same⟩ := List.append_inj' split rfl
  exact ⟨last, by rw [same], rfl⟩

/-- A word does not go over the end of a line. -/
theorem EndsInFunction.of_append_line {above characters : List Char}
    (ends : EndsInFunction (above ++ ['\n'] ++ characters)) :
    EndsInFunction above ∨ EndsInFunction characters := by
  obtain ⟨front, blanks, split, blank⟩ := ends
  have oneLine {part more : List Char} (word : "function".toList = part ++ ['\n'] ++ more) :
      False := by
    have inside : '\n' ∈ "function".toList := by simp [word]
    exact absurd inside (by decide)
  rcases List.append_eq_append_iff.mp split with ⟨more, wordEq, rfl⟩ | ⟨more, aboveEq, rfl⟩
  · right
    rcases List.append_eq_append_iff.mp wordEq with ⟨part, aboveEq, word⟩ | ⟨part, rfl, rfl⟩
    · have nothing : part = [] := by
        by_contra nonempty
        obtain ⟨last, rfl, -⟩ := exists_of_line_suffix aboveEq nonempty
        exact oneLine word
      rw [nothing, List.nil_append] at word
      exact ⟨[], blanks, by rw [word, List.nil_append], blank⟩
    · exact ⟨part, blanks, rfl, blank⟩
  · left
    have behindLine : more ≠ [] := by
      rintro rfl
      rw [List.append_nil] at aboveEq
      obtain ⟨last, word, -⟩ := exists_of_line_suffix aboveEq (by decide)
      exact oneLine (word.trans (List.append_nil _).symm)
    obtain ⟨last, rfl, rfl⟩ := exists_of_line_suffix aboveEq behindLine
    exact ⟨front, last, rfl, fun c member =>
      blank c (List.mem_append_left _ (List.mem_append_left _ member))⟩

end WordInFront

/-- Whether a function of a larger text makes all names local that a function of a text does: its
body continues the body, and it begins at the same place unless nothing is destructured there. -/
structure Covers (text whole : Text) (offset : Nat) (function larger : FunctionBody) : Prop where
  body : Continues text whole function.body larger.body
  start : larger.start = function.start + offset ∨ destructured text function.start = []

variable {characters : List Char} {function : FunctionBody}

section Parameters

variable {frame : Frame}

private theorem afterParameters?_of_stop (frame : Frame) {stop : Nat} {body : Span}
    (positive : 1 ≤ stop) (braced : afterParameters? (encode characters) (stop - 1) = some body) :
    afterParameters? (encode (frame.around characters)) (stop + frame.offset - 1) =
      some (body.shift frame.offset) := by
  rw [Nat.sub_add_comm positive, frame.encode_around]
  exact afterParameters?_around ⟨_, rfl⟩ ⟨_, rfl⟩ braced

private theorem continues_around {position : Nat} {body : Span}
    (braced : afterParameters? (encode characters) position = some body) :
    Continues (encode characters) (encode (frame.around characters)) body
      (body.shift frame.offset) := by
  have whole := Checked.isWhole_of_afterParameters? ⟨characters, rfl⟩ braced
  rw [frame.encode_around]
  exact continues_shift whole.inside

end Parameters

/-- What the word `function` begins in a text it begins in a larger one, there or in front of it. -/
theorem exists_functions_around (frame : Frame) (closing : frame.closing = some '(')
    (seam : isWord frame.front.getLast? = false)
    (member : function ∈ functions (encode characters)) :
    ∃ larger ∈ functions (encode (frame.around characters)),
      Covers (encode characters) (encode (frame.around characters)) frame.offset function
        larger := by
  have outer := outer_functionHead closing seam
  obtain ⟨found, inside, here⟩ := List.mem_filterMap.mp member
  obtain ⟨body, braced, rfl⟩ := Option.map_eq_some_iff.mp here
  have positive : 1 ≤ found.span.stop :=
    Nat.one_le_of_lt (Checked.steps_functionHead.search inside).2.2
  have continues : Continues (encode characters) (encode (frame.around characters)) body
      (body.shift frame.offset) := continues_around braced
  have listed {other : Match Unit}
      (foundThere : other ∈ functionHead.search (encode (frame.around characters)))
      (stop : other.span.stop = found.span.stop + frame.offset) :
      ⟨.function, other.span.start, body.shift frame.offset⟩ ∈
        functions (encode (frame.around characters)) := by
    refine List.mem_filterMap.mpr ⟨other, foundThere, ?_⟩
    rw [stop, afterParameters?_of_stop frame positive braced]
    rfl
  rcases outer.mem_search_around inside with same | ⟨other, there, swallows, stop⟩
  · exact ⟨_, listed same rfl, continues, .inl rfl⟩
  · obtain ⟨first, second, before, rest, -, -, rfl, avoids, reads, -⟩ := swallows
    refine ⟨_, listed there stop, continues, .inr ?_⟩
    obtain ⟨_, _, _, _, _, _, span⟩ := outer.exists_of_matchAt? reads
    have apart : '(' ∉ before := fun member => avoids '(' closing (List.mem_append_right _ member)
    rw [span]
    exact destructured_eq_nil apart

private theorem not_swallows_methodHead {frame : Frame} {above : List Char}
    (closing : frame.closing = some '(') (line : frame.front = above ++ ['\n'])
    {found other : Match Span} : ¬ Swallows frame methodHead characters other found := by
  rintro ⟨first, second, before, rest, frontEq, nonempty, -, avoids, reads, earlier⟩
  obtain ⟨last, rfl, -⟩ := exists_of_line_suffix (line.symm.trans frontEq) nonempty
  obtain ⟨_, rest, rfl, -, ⟨name, gap, rfl, named, blank, -⟩, -⟩ :=
    (reads_methodHead _ _ _).mp reads
  obtain ⟨_, behind, split, -, ⟨word, blanks, rfl, wordNamed, blanksBlank, -⟩, -⟩ :=
    (reads_methodHead _ _ _).mp earlier
  have whole : last ++ ['\n'] ++ before ++ (name ++ gap ++ ['('] ++ (rest ++ frame.behind)) =
      word ++ blanks ++ ['('] ++ behind := by simpa using split
  obtain ⟨rfl, -⟩ := eq_of_append_nameUpTo (by decide) (by decide) whole (avoids '(' closing) named
    blank wordNamed blanksBlank
  have inside := RequireLine.wordOrDollar_of_name wordNamed '\n' (by simp)
  exact absurd inside (by decide)

private theorem isMethodName_around {frame : Frame} {above before rest : List Char} {name : Text}
    (line : frame.front = above ++ ['\n']) (apart : ¬EndsInFunction above)
    (method : isMethodName (encode (before ++ rest)) name (encode before).length = true) :
    isMethodName (encode (frame.around (before ++ rest))) name
      ((encode before).length + frame.offset) = true := by
  have place : (encode before).length + frame.offset =
      (encode (above ++ ['\n'] ++ before)).length := by
    rw [Frame.offset, line, encode_append _ before, List.length_append, Nat.add_comm]
  have shape : frame.around (before ++ rest) =
      above ++ ['\n'] ++ before ++ (rest ++ frame.behind) := by simp [Frame.around, line]
  rw [isMethodName, encode_append, List.take_left] at method
  rw [isMethodName, place, shape, encode_append _ (rest ++ frame.behind), List.take_left]
  simp only [Bool.and_eq_true, Bool.not_eq_true', ← Bool.not_eq_true, trimEnd_endsWith_iff]
    at method ⊢
  obtain ⟨⟨plain, follows⟩, noFunction⟩ := method
  refine ⟨⟨plain, ?_⟩, fun ends => ends.of_append_line.elim apart noFunction⟩
  cases before with
  | nil =>
    have last : (encode (above ++ ['\n'] ++ [])).getLast? = some Byte.newline := by
      rw [List.append_nil, encode_append]
      exact List.getLast?_concat
    rw [last]
    decide
  | cons c before =>
    have nonempty : encode (c :: before) ≠ [] := by simp [String.utf8EncodeChar_ne_nil]
    rwa [encode_append _ (c :: before), List.getLast?_append_of_ne_nil _ nonempty]

/-- What is written as a method in a text is one in a larger text, in which a line begins in front
of it and no word `function` stands at the end of the lines above. -/
theorem exists_methods_around (frame : Frame) {above : List Char}
    (closing : frame.closing = some '(') (line : frame.front = above ++ ['\n'])
    (apart : ¬EndsInFunction above) (member : function ∈ methods (encode characters)) :
    ∃ larger ∈ methods (encode (frame.around characters)),
      Covers (encode characters) (encode (frame.around characters)) frame.offset function
        larger := by
  have outer : Outer frame (Span.shift · frame.offset) methodHead methodHead :=
    outer_methodHead closing
  obtain ⟨found, inside, here⟩ := List.mem_filterMap.mp member
  split at here
  · next isMethod =>
    obtain ⟨body, braced, rfl⟩ := Option.map_eq_some_iff.mp here
    obtain ⟨name, whole, forward⟩ := Checked.ensures_methodHead.search inside
    obtain ⟨before, rest, rfl, start⟩ := whole.starts.exists_append
    rcases outer.mem_search_around inside with there | ⟨other, -, swallows, -⟩
    · have sameName : (encode (frame.around (before ++ rest))).slice
          (found.value.shift frame.offset) = (encode (before ++ rest)).slice found.value := by
        rw [frame.encode_around]
        exact slice_around name.inside
      rw [← start, ← sameName] at isMethod
      have still := isMethodName_around line apart isMethod
      rw [start] at still
      have parameters := afterParameters?_of_stop frame (Nat.one_le_of_lt forward) braced
      exact ⟨⟨.method, found.span.start + frame.offset, body.shift frame.offset⟩,
        List.mem_filterMap.mpr
          ⟨_, there, (if_pos still).trans (congrArg (Option.map _) parameters)⟩,
        continues_around braced, .inl rfl⟩
    · exact absurd swallows (not_swallows_methodHead closing line)
  · contradiction

private theorem not_swallows_arrow {frame : Frame} {above : List Char}
    (closing : frame.closing = some '>') (line : frame.front = above ++ ['\n'])
    {found other : Match Unit} :
    ¬ Swallows frame (Pattern.literal "=>") characters other found := by
  rintro ⟨first, second, before, rest, frontEq, nonempty, -, avoids, -, earlier⟩
  obtain ⟨last, rfl, -⟩ := exists_of_line_suffix (line.symm.trans frontEq) nonempty
  obtain ⟨_, there, -⟩ := exists_of_matchAt? earlier
  have there : _ ∈ Pattern.literal (encode ['=', '>']) _ := there
  obtain ⟨after, split, -⟩ := mem_literal.mp there
  have apart := avoids '>' closing
  cases last with
  | nil =>
    obtain ⟨same, -⟩ := List.cons.inj split
    exact absurd same (by decide)
  | cons c last =>
    obtain ⟨-, split⟩ := List.cons.inj split
    cases last with
    | nil =>
      obtain ⟨same, -⟩ := List.cons.inj split
      exact absurd same (by decide)
    | cons d last =>
      obtain ⟨rfl, -⟩ := List.cons.inj split
      exact apart (by simp)

/-- An arrow has no body if a brace follows it that is never closed, and only then. -/
theorem ofArrow?_eq_none_iff {text : Text} {position : Nat} : ofArrow? text position = none ↔
    text[text.skipBlanks (position + 2)]? = some Byte.openBrace ∧
      text.closingOf? (text.skipBlanks (position + 2)) = none := by
  by_cases brace : text[text.skipBlanks (position + 2)]? = some Byte.openBrace <;>
    simp [ofArrow?, bracedAt?, brace]

/-- Whether the arrow at a position ends a text, blanks allowed behind it, and has no body in a
larger text, where a brace follows it that is never closed. -/
def LosesBody (text whole : Text) (offset position : Nat) : Prop :=
  (∃ blanks : Text, text.drop position = "=>" ++ blanks ∧ ∀ b ∈ blanks, Byte.isBlank b = true) ∧
    whole[whole.skipBlanks (position + offset + 2)]? = some Byte.openBrace ∧
    whole.closingOf? (whole.skipBlanks (position + offset + 2)) = none

private theorem blanks_of_skipBlanks {front blanks : Text}
    (ended : (front ++ blanks).skipBlanks front.length = (front ++ blanks).length) :
    ∀ b ∈ blanks, Byte.isBlank b = true := by
  rw [skipBlanks, List.drop_left, List.length_append] at ended
  have short := (List.takeWhile_prefix (p := Byte.isBlank) (l := blanks)).length_le
  have all : blanks.takeWhile Byte.isBlank = blanks :=
    (List.takeWhile_prefix _).eq_of_length (by omega)
  exact List.takeWhile_eq_self_iff.mp all

/-- What an arrow begins in a text it begins in a larger one, in which a line begins in front of it
and behind it, unless it loses its body there. -/
theorem exists_arrows_around (frame : Frame) {above : List Char}
    (closing : frame.closing = some '>') (line : frame.front = above ++ ['\n'])
    (next : BeginsLine (encode frame.behind)) (member : function ∈ arrows (encode characters)) :
    (∃ larger ∈ arrows (encode (frame.around characters)),
      Covers (encode characters) (encode (frame.around characters)) frame.offset function larger) ∨
    (encode characters).slice function.body = [] ∧ LosesBody (encode characters)
      (encode (frame.around characters)) frame.offset function.start := by
  have outer : Outer frame id (Pattern.literal "=>") (Pattern.literal "=>") := outer_arrow closing
  obtain ⟨found, inside, here⟩ := List.mem_filterMap.mp member
  have start := start_of_ofArrow? here
  rcases outer.mem_search_around inside with there | ⟨other, -, swallows, -⟩
  · have bodies := ofArrow?_around (encode frame.front) next here
    rw [← frame.encode_around] at bodies
    rcases bodies with ⟨larger, covers, continues⟩ | ⟨ended, empty, lost⟩
    · exact .inl ⟨larger, List.mem_filterMap.mpr ⟨_, there, covers⟩, continues, .inl (by
        rw [start_of_ofArrow? covers, start]
        rfl)⟩
    · right
      refine ⟨empty, ?_, ofArrow?_eq_none_iff.mp (start ▸ lost)⟩
      obtain ⟨before, rest, rfl, reads, -⟩ := outer.exists_of_mem_search inside
      obtain ⟨_, arrow, span, -⟩ := exists_of_matchAt? reads
      have arrow : _ ∈ Pattern.literal (encode ['=', '>']) _ := arrow
      obtain ⟨after, rfl, -⟩ := mem_literal.mp arrow
      have place : function.start = (encode before).length := by
        rw [start, span, position_between]
      have stop : found.span.start + 2 = (encode (before ++ ['=', '>'])).length := by
        rw [← start, place, encode_append, List.length_append]
        rfl
      rw [← List.append_assoc, stop, encode_append _ after] at ended
      refine ⟨encode after, ?_, blanks_of_skipBlanks ended⟩
      rw [place, encode_append, List.drop_left, encode_append]
      rfl
  · exact absurd swallows (not_swallows_arrow closing line)

end BareComponent.FunctionBody
