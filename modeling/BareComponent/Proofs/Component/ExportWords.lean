import BareComponent.Proofs.Component.Characters
import BareComponent.Proofs.Mask.Replaced
import BareComponent.Proofs.Mask.Words
import BareComponent.Proofs.Pattern.Preferred

/-! # The words of a default export

The words `export default` are searched in the mask, where the first that have white space on both
sides of `default` are taken. Words that stand whole in the code of a text are shown by its mask as
they are. What is behind them is scanned as code, so their line decides whether white space is shown
there.
-/

namespace BareComponent

open Text Pattern Cursor Scanner

/-- The words in front of the value that a script exports by default, and what stands between
them. -/
def exportWords (gap : List Char) : List Char := "export".toList ++ (gap ++ "default".toList)

theorem exportWords_eq (gap : List Char) :
    exportWords gap = "export".toList ++ (gap ++ "default".toList) := rfl

theorem exportWords_append (gap rest : List Char) :
    exportWords gap ++ rest = "export".toList ++ (gap ++ ("default".toList ++ rest)) := by
  rw [exportWords_eq, List.append_assoc, List.append_assoc]

theorem exportWords_ne_nil (gap : List Char) : exportWords gap ≠ [] :=
  List.cons_ne_nil 'e' _

theorem encode_exportWords_pos (gap : List Char) : 0 < (encode (exportWords gap)).length :=
  List.length_pos_iff.mpr (mt eq_nil_of_encode (exportWords_ne_nil gap))

namespace Text

/-- Whether the words of a default export stand at a place of a text, whole and with white space
between them. -/
def HasExportWords (text : Text) (words : Span) : Prop :=
  ∃ front gap behind, text = encode (front ++ (exportWords gap ++ behind)) ∧
    gap ≠ [] ∧ Blank gap ∧ isWord front.getLast? = false ∧ isWord behind.head? = false ∧
    words = ⟨(encode front).length, (encode (front ++ exportWords gap)).length⟩

/-- The word `default` is not blank. -/
theorem dark_default (behind : List Char) :
    ∀ c ∈ ("default".toList ++ behind).head?, CharacterClass.blank c.toNat = false := by
  rintro c ⟨⟩
  decide

/-- Words are told by where they begin. -/
theorem HasExportWords.eq_of_start {text : Text} {words others : Span}
    (has : text.HasExportWords words) (otherHas : text.HasExportWords others)
    (same : words.start = others.start) : words = others := by
  obtain ⟨front, gap, behind, rfl, -, blank, -, -, rfl⟩ := has
  obtain ⟨otherFront, otherGap, otherBehind, spelled, -, otherBlank, -, -, rfl⟩ := otherHas
  obtain rfl := append_inj_of_length (encode_injective spelled) same
  have tails := List.append_cancel_left (encode_injective spelled)
  simp only [exportWords_eq, List.append_assoc, List.append_cancel_left_eq] at tails
  obtain ⟨rfl, -⟩ := append_inj_of_run (fun c : Char => CharacterClass.blank c.toNat) tails blank
    otherBlank (dark_default _) (dark_default _)
  rfl

/-- Words begin with the first letter of `export`. -/
theorem HasExportWords.getElem?_start {text : Text} {words : Span}
    (has : text.HasExportWords words) :
    text[words.start]? = some 0x65 ∧ words.start < words.stop := by
  obtain ⟨front, gap, behind, rfl, -, -, -, -, rfl⟩ := has
  constructor
  · rw [encode_append, List.getElem?_append_right (Nat.le_refl _), Nat.sub_self]
    rfl
  · rw [encode_append, List.length_append]
    exact Nat.lt_add_of_pos_right (encode_exportWords_pos gap)

/-- Words end with the last letter of `default`. -/
theorem HasExportWords.getLast?_take {text : Text} {words : Span}
    (has : text.HasExportWords words) : (text.take words.stop).getLast? = some 0x74 := by
  obtain ⟨front, gap, behind, rfl, -, -, -, -, rfl⟩ := has
  have letters : exportWords gap = "export".toList ++ (gap ++ "defaul".toList) ++ ['t'] := by
    rw [List.append_assoc, List.append_assoc]
    rfl
  have split : encode (front ++ exportWords gap) =
      encode (front ++ ("export".toList ++ (gap ++ "defaul".toList))) ++ [0x74] := by
    rw [letters, ← List.append_assoc, encode_append _ ['t']]
    rfl
  rw [← List.append_assoc, encode_append _ behind, List.take_left, split, List.getLast?_concat]

/-- How much white space stands at a place of a text. -/
def blanksAt (text : Text) (place : Nat) : Nat :=
  (text.drop place).length - (trimStart (text.drop place)).length

/-- The blanks behind a place are counted up to the first character that is none. -/
theorem blanksAt_encode {front blanks rest : List Char} (blank : Blank blanks)
    (dark : ∀ c ∈ rest.head?, CharacterClass.blank c.toNat = false) :
    blanksAt (encode (front ++ (blanks ++ rest))) (encode front).length =
      (encode blanks).length := by
  have trimmed : (blanks ++ rest).dropWhile (CharacterClass.blank ·.toNat) = rest := by
    rw [List.dropWhile_append_of_pos blank]
    cases rest with
    | nil => rfl
    | cons c rest => exact List.dropWhile_cons_of_neg (by simp [dark c rfl])
  rw [blanksAt, encode_append front, List.drop_left, trimStart_encode, trimmed, encode_append,
    List.length_append, Nat.add_sub_cancel]

private theorem exists_blanks (characters : List Char) : ∃ blanks rest,
    characters = blanks ++ rest ∧ Blank blanks ∧
      ∀ c ∈ rest.head?, CharacterClass.blank c.toNat = false := by
  let inside (c : Char) : Bool := CharacterClass.blank c.toNat
  refine ⟨characters.takeWhile inside, characters.dropWhile inside,
    List.takeWhile_append_dropWhile.symm,
    fun c member => @List.mem_takeWhile_imp _ inside _ _ member, fun c first => ?_⟩
  have stays := List.head?_dropWhile_not inside characters
  rw [Option.mem_def.mp first] at stays
  simpa [inside] using stays

private theorem exists_of_blanksAt {front behind : List Char}
    (spaced : 0 < blanksAt (encode (front ++ behind)) (encode front).length) :
    ∃ blanks rest, behind = blanks ++ rest ∧ blanks ≠ [] ∧ Blank blanks ∧
      ∀ c ∈ rest.head?, CharacterClass.blank c.toNat = false := by
  obtain ⟨blanks, rest, rfl, blank, dark⟩ := exists_blanks behind
  refine ⟨blanks, rest, rfl, ?_, blank, dark⟩
  rintro rfl
  rw [blanksAt_encode blank dark] at spaced
  exact Nat.lt_irrefl 0 spaced

/-- White space stands at a place if the character behind it is blank. -/
theorem blanksAt_pos_iff {front behind : List Char} :
    0 < blanksAt (encode (front ++ behind)) (encode front).length ↔
      ∃ c ∈ behind.head?, CharacterClass.blank c.toNat = true := by
  constructor
  · intro spaced
    obtain ⟨blanks, rest, rfl, nonempty, blank, -⟩ := exists_of_blanksAt spaced
    obtain ⟨c, blanks, rfl⟩ := List.exists_cons_of_ne_nil nonempty
    exact ⟨c, rfl, blank c List.mem_cons_self⟩
  · rintro ⟨c, first, cBlank⟩
    obtain ⟨blanks, rest, rfl, blank, dark⟩ := exists_blanks behind
    rw [blanksAt_encode blank dark]
    refine List.length_pos_iff.mpr fun nothing => ?_
    obtain rfl := eq_nil_of_encode nothing
    rw [dark c first] at cBlank
    contradiction

end Text

namespace ComponentScript

section Search

variable {before after : List Char}

private theorem matchAt?_defaultExport {found : Match Unit}
    (here : matchAt? defaultExport (between before after) = some found) :
    ∃ words, (encode (before ++ after)).HasExportWords words ∧
      0 < (encode (before ++ after)).blanksAt words.stop ∧
      words.start = (encode before).length ∧ found.span =
        ⟨words.start, words.stop + (encode (before ++ after)).blanksAt words.stop⟩ := by
  obtain ⟨next, matched, span, -⟩ := exists_of_matchAt? here
  obtain ⟨edge, gap, more, rest, spelled, spaced, blank, moreSome, others, dark, rfl⟩ :=
    mem_defaultExport.mp matched
  rw [← exportWords_append] at spelled
  subst spelled
  have blanks := @blanksAt_encode (before ++ exportWords gap) more rest others dark
  rw [List.append_assoc] at blanks
  have nonempty : 0 < (encode more).length :=
    List.length_pos_iff.mpr fun nothing => moreSome (eq_nil_of_encode nothing)
  refine ⟨⟨(encode before).length, (encode (before ++ exportWords gap)).length⟩,
    ⟨before, gap, more ++ rest, rfl, spaced, blank, edge, ?_, rfl⟩, blanks ▸ nonempty, rfl, ?_⟩
  · obtain ⟨c, more, rfl⟩ := List.exists_cons_of_ne_nil moreSome
    exact CharacterClass.word_of_blank (others c List.mem_cons_self)
  · rw [span, position_between, position_between, blanks, ← exportWords_append, ← List.append_assoc,
      encode_append _ more, List.length_append]

private theorem matchAt?_defaultExport_ne_none {words : Span}
    (has : (encode (before ++ after)).HasExportWords words)
    (spaced : 0 < (encode (before ++ after)).blanksAt words.stop)
    (place : words.start = (encode before).length) :
    matchAt? defaultExport (between before after) ≠ none := by
  obtain ⟨front, gap, behind, same, nonempty, blank, edge, -, rfl⟩ := has
  obtain rfl : before = front := append_inj_of_length (encode_injective same) place.symm
  obtain rfl := List.append_cancel_left (encode_injective same)
  rw [← List.append_assoc] at spaced
  obtain ⟨more, rest, rfl, moreSome, others, dark⟩ := exists_of_blanksAt spaced
  refine matchAt?_ne_none (mem_defaultExport.mpr ⟨edge, gap, more, rest, exportWords_append ..,
    nonempty, blank, moreSome, others, dark, rfl⟩) fun _ stop member => ?_
  obtain ⟨-, gap, more, rest, -, -, -, -, -, -, rfl⟩ := mem_defaultExport.mp member
  have letters := encode_exportWords_pos gap
  rw [position_between, position_between, ← exportWords_append, encode_append before,
    List.length_append, encode_append, List.length_append]
  omega

variable {text : Text} {words : Span}

/-- Whether these are the first words of a default export with white space behind them. -/
structure IsFirstExport (text : Text) (words : Span) : Prop where
  has : text.HasExportWords words
  spaced : 0 < text.blanksAt words.stop
  first : ∀ others, text.HasExportWords others → 0 < text.blanksAt others.stop →
    words.start ≤ others.start

/-- What the search for a default export finds is the first of the words and the blanks behind
them. -/
theorem exists_isFirstExport_of_find? {characters : List Char} {found : Match Unit}
    (nonempty : defaultExport.find? (encode characters) = some found) :
    ∃ words, IsFirstExport (encode characters) words ∧ found.span =
      ⟨words.start, words.stop + (encode characters).blanksAt words.stop⟩ := by
  obtain ⟨before, c, rest, rfl, here, clear⟩ := find?_encode_eq_some_iff.mp nonempty
  obtain ⟨words, has, spaced, place, span⟩ := matchAt?_defaultExport here
  refine ⟨words, ⟨has, spaced, fun others otherHas otherSpaced => ?_⟩, span⟩
  by_contra earlier
  rw [Nat.not_le, place] at earlier
  obtain ⟨front, gap, behind, same, -, -, -, -, rfl⟩ := id otherHas
  obtain ⟨second, rfl, behindEq⟩ :=
    exists_append_of_length_le (encode_injective same).symm earlier.le
  have nonempty : second ≠ [] := by
    rintro rfl
    rw [List.append_nil] at earlier
    exact Nat.lt_irrefl _ earlier
  rw [List.append_assoc] at otherHas otherSpaced
  exact matchAt?_defaultExport_ne_none otherHas otherSpaced rfl (clear front second rfl nonempty)

/-- If no default export is found, no blank stands behind the words anywhere. -/
theorem blanksAt_eq_zero_of_find?_eq_none {characters : List Char}
    (absent : defaultExport.find? (encode characters) = none)
    (has : (encode characters).HasExportWords words) :
    (encode characters).blanksAt words.stop = 0 := by
  by_contra spaced
  obtain ⟨front, gap, behind, same, -, -, -, -, rfl⟩ := id has
  obtain rfl := encode_injective same
  refine matchAt?_defaultExport_ne_none has (Nat.pos_of_ne_zero spaced) rfl ?_
  have nothing : searchBehind defaultExport [] (front ++ (exportWords gap ++ behind)) = [] :=
    List.head?_eq_none_iff.mp absent
  exact matchAt?_eq_none_of_search nothing
    (List.append_ne_nil_of_left_ne_nil (exportWords_ne_nil gap) _)

end Search

section Masked

private theorem wordOrDollar_of_word {c : Char} (word : CharacterClass.word c.toNat = true) :
    CharacterClass.wordOrDollar c.toNat = true := by
  rw [CharacterClass.wordOrDollar, CharacterClass.or, word, Bool.true_or]

variable {characters front behind name : List Char}

private theorem whole_of_mask {before after : List Char}
    (masked : (encode (before ++ (name ++ after))).mask = encode (front ++ (name ++ behind)))
    (place : (encode before).length = (encode front).length) (nonempty : name ≠ [])
    (named : ∀ c ∈ name, CharacterClass.wordOrDollar c.toNat = true) :
    (isWord before.getLast? = false → isWord front.getLast? = false) ∧
      (isWord after.head? = false → isWord behind.head? = false) := by
  have keeps := keepsWords_mask (encode (before ++ (name ++ after)))
  rw [masked] at keeps
  have wordOf {c? : Option Char} (word : ¬isWord c? = false) :
      ∃ c, c? = some c ∧ CharacterClass.word c.toNat = true := by
    cases c? with
    | none => exact absurd rfl word
    | some c => exact ⟨c, rfl, by simpa [isWord] using word⟩
  constructor
  · intro edge
    by_contra joined
    obtain ⟨c, last, word⟩ := wordOf joined
    obtain ⟨front, rfl⟩ := List.getLast?_eq_some_iff.mp last
    have shape : front ++ [c] ++ (name ++ behind) = front ++ (c :: name) ++ behind := by simp
    rw [shape] at keeps
    obtain ⟨above, below, same, length, -⟩ := keeps.exists_around (List.cons_ne_nil c name)
      (List.forall_mem_cons.mpr ⟨wordOrDollar_of_word word, named⟩)
    have split : before ++ (name ++ after) = (above ++ [c]) ++ (name ++ below) := by
      rw [same]
      simp
    obtain rfl : before = above ++ [c] := append_inj_of_length split (by
      rw [place, encode_append, encode_append, List.length_append, List.length_append, length])
    rw [List.getLast?_concat, isWord, Option.any_some, word] at edge
    contradiction
  · intro edge
    by_contra joined
    obtain ⟨c, first, word⟩ := wordOf joined
    obtain ⟨behind, rfl⟩ := List.head?_eq_some_iff.mp first
    have shape : front ++ (name ++ c :: behind) = front ++ (name ++ [c]) ++ behind := by simp
    rw [shape] at keeps
    obtain ⟨above, below, same, length, -⟩ := keeps.exists_around
      (List.append_ne_nil_of_left_ne_nil nonempty [c])
      (List.forall_mem_append.mpr ⟨named, by simpa using wordOrDollar_of_word word⟩)
    rw [List.append_assoc above] at same
    obtain rfl := append_inj_of_length same (place.trans length.symm)
    have split := List.append_cancel_left same
    rw [List.append_assoc] at split
    obtain rfl := List.append_cancel_left split
    rw [List.singleton_append, List.head?_cons, isWord, Option.any_some, word] at edge
    contradiction

private theorem plain_exportWords {gap : List Char} (blank : Blank gap) :
    ∀ b ∈ encode (exportWords gap), Plain b := by
  have blanks : ∀ b ∈ encode gap, Plain b := by
    intro b member
    obtain ⟨c, inside, member⟩ := List.mem_flatMap.mp member
    by_contra special
    have low : b.toNat < 0x80 := by
      simp only [Plain, not_not, List.mem_cons, List.not_mem_nil, or_false] at special
      rcases special with rfl | rfl | rfl | rfl | rfl | rfl <;> decide
    have here := blank c inside
    rw [(encodeChar_eq_singleton member low).2] at here
    simp only [Plain, not_not, List.mem_cons, List.not_mem_nil, or_false] at special
    rcases special with rfl | rfl | rfl | rfl | rfl | rfl <;> exact absurd here (by decide)
  rw [exportWords_eq, encode_append, encode_append]
  exact List.forall_mem_append.mpr ⟨forall_mem_of_all (by decide),
    List.forall_mem_append.mpr ⟨blanks, forall_mem_of_all (by decide)⟩⟩

/-- Words that stand in code are shown by the mask, and what is behind them is scanned as code. -/
theorem mask_of_hasExportWords {text : Text} {words : Span} {braces : List Nat}
    (has : text.HasExportWords words) (code : stateAt text words.start = ⟨.code, false, braces⟩) :
    text.mask.HasExportWords words ∧
      text.mask.drop words.stop = scan ⟨.code, false, braces⟩ none (text.drop words.stop) := by
  obtain ⟨front, gap, behind, rfl, nonempty, blank, edge, ends, rfl⟩ := has
  have parts : encode (front ++ (exportWords gap ++ behind)) =
      encode front ++ (encode (exportWords gap) ++ encode behind) := by
    rw [encode_append, encode_append]
  obtain ⟨scanned, ended⟩ := @settlesIn_plain braces _ (plain_exportWords blank)
    (encode behind).head?
  have masked := mask_append (encode front) (encode (exportWords gap)) (encode behind)
  rw [← parts, code, scanned, ended] at masked
  have string : IsString (encode (front ++ (exportWords gap ++ behind))) := ⟨_, rfl⟩
  obtain ⟨shown, spelled⟩ := string.aligned.maskIsString
  obtain ⟨above, below, rfl, aboveEq, belowEq⟩ := encode_eq_append_encode
    (exportWords_ne_nil gap) (spelled.symm.trans (masked.trans (List.append_assoc ..).symm))
  rw [List.append_assoc] at spelled
  have place : (encode front).length = (encode above).length := by rw [aboveEq, scan_length]
  have placeBehind : (encode (front ++ exportWords gap)).length =
      (encode (above ++ exportWords gap)).length := by
    rw [encode_append, encode_append, List.length_append, List.length_append, place]
  refine ⟨⟨above, gap, below, spelled, nonempty, blank, ?_, ?_, by rw [place, placeBehind]⟩, ?_⟩
  · have whole := @whole_of_mask above (gap ++ ("default".toList ++ below)) "export".toList front
      (gap ++ ("default".toList ++ behind))
      (by simpa only [exportWords_eq, List.append_assoc] using spelled) place (by decide)
      (forall_mem_of_all (by decide))
    exact whole.1 edge
  · have whole := @whole_of_mask (above ++ ("export".toList ++ gap)) below "default".toList
      (front ++ ("export".toList ++ gap)) behind
      (by simpa only [exportWords_eq, List.append_assoc] using spelled)
      (by simp only [encode_append, List.length_append, place]) (by decide)
      (forall_mem_of_all (by decide))
    exact whole.2 ends
  · have cut (front behind : List Char) : (encode (front ++ (exportWords gap ++ behind))).drop
        (encode (front ++ exportWords gap)).length = encode behind := by
      rw [← List.append_assoc, encode_append _ behind, List.drop_left]
    rw [cut, spelled, placeBehind, cut, belowEq]

/-- Whether white space is shown behind words in code is decided on their line. -/
theorem blanksAt_mask_pos_iff {text : Text} {words : Span} {braces : List Nat}
    (has : text.HasExportWords words) (code : stateAt text words.start = ⟨.code, false, braces⟩) :
    0 < text.mask.blanksAt words.stop ↔
      0 < blanksAt (scan ⟨.code, false, braces⟩ none (text.lineBehind words.stop)) 0 := by
  obtain ⟨shown, behindEq⟩ := mask_of_hasExportWords has code
  obtain ⟨front, gap, behind, spelled, -, -, -, -, place⟩ := shown
  have cut : text.mask.drop words.stop = encode behind := by
    rw [spelled, place, ← List.append_assoc, encode_append _ behind, List.drop_left]
  obtain ⟨rest, split, free, last⟩ := exists_lineBehind text words.stop
  have dropEq : text.drop words.stop = text.lineBehind words.stop ++ rest := by
    refine @List.append_cancel_left _ (text.take words.stop) _ _ ?_
    rw [List.take_append_drop, ← split]
  rw [dropEq, cut] at behindEq
  have here : 0 < text.mask.blanksAt words.stop ↔
      ∃ c ∈ behind.head?, CharacterClass.blank c.toNat = true := by
    rw [← @blanksAt_pos_iff (front ++ exportWords gap), List.append_assoc, ← spelled, place]
  rw [here]
  generalize text.lineBehind words.stop = line at *
  by_cases closed : Byte.newline ∈ line
  · have one : IsLine Byte.newline line := ⟨List.ne_nil_of_mem closed, free⟩
    obtain ⟨body, rfl, -⟩ := one.exists_eq_append closed
    rw [scan_append, scan_of_isLines (isLines_append_newline body), scan_append_newline,
      List.append_assoc] at behindEq
    obtain ⟨first, c, second, rfl, firstEq, newline, -⟩ :=
      encode_eq_append_cons behindEq (by decide)
    obtain rfl : c = '\n' := encodeChar_injective (newline.trans rfl)
    have lineEq : scan ⟨.code, false, braces⟩ none (body ++ [Byte.newline]) =
        encode (first ++ ['\n']) := by
      rw [scan_append_newline, encode_append, firstEq]
      rfl
    have head : (first ++ '\n' :: second).head? = (first ++ ['\n']).head? := by
      cases first <;> rfl
    rw [lineEq, head]
    exact (@blanksAt_pos_iff [] _).symm
  · rw [last closed, List.append_nil] at behindEq
    rw [← behindEq]
    exact (@blanksAt_pos_iff [] _).symm

end Masked

end ComponentScript

end BareComponent
