import BareComponent.Proofs.ReturnFilter.Exchange
import BareComponent.Proofs.ReturnFilter.Filtered

/-! # Cutting glyphs

Where the filter cuts a script, the mask shows a brace, a bracket or a comma. A script that is made
of glyphs therefore has contents, entries and ends that are made of glyphs too, and so has what is
put together from them.
-/

namespace BareComponent.Glyph

open Text ReturnFilter

/-- What some glyphs spell, with its mask. -/
def marked (glyphs : List Glyph) : Marked := ⟨text glyphs, mask glyphs⟩

/-- The comma between two entries. -/
def comma : Glyph := ⟨',', true⟩

def join : List (List Glyph) → List Glyph
  | [] => []
  | [piece] => piece
  | piece :: next :: pieces => piece ++ comma :: join (next :: pieces)

theorem slice_marked (front content behind : List Glyph) :
    (marked (front ++ content ++ behind)).slice
      ⟨(mask front).length, (mask front).length + (mask content).length⟩ = marked content := by
  simp only [Marked.slice, marked, text_append, mask_append, Marked.mk.injEq]
  exact ⟨slice_append _ (by simp) (by simp), slice_append _ rfl rfl⟩

/-- The characters that a mask has in the place of some glyphs. -/
def characters (glyphs : List Glyph) : List Char := glyphs.flatMap shownCharacters

@[simp] theorem characters_nil : characters [] = [] := rfl

@[simp] theorem characters_cons (glyph : Glyph) (rest : List Glyph) :
    characters (glyph :: rest) = glyph.shownCharacters ++ characters rest := rfl

@[simp] theorem characters_append (first second : List Glyph) :
    characters (first ++ second) = characters first ++ characters second := List.flatMap_append

theorem encode_characters (glyphs : List Glyph) : encode (characters glyphs) = mask glyphs :=
  (mask_eq_encode glyphs).symm

/-- A part of a mask, given by the glyphs of a part. -/
def partOf (part : ReturnFilter.Part Glyph) : ReturnFilter.Part Char :=
  ⟨characters part.gap, characters part.content⟩

theorem characters_weave (tail : List Glyph) (parts : List (ReturnFilter.Part Glyph)) :
    characters (weave tail parts) = weave (characters tail) (parts.map partOf) := by
  induction parts with
  | nil => rfl
  | cons part parts ih => simp [weave, partOf, ih]

/-- A mask has one character in the place of a glyph, or blanks. -/
theorem exists_shownCharacters (glyph : Glyph) :
    ∃ c blanks, glyph.shownCharacters = c :: blanks ∧ Blank blanks := by
  unfold shownCharacters
  split
  · exact ⟨_, [], rfl, blank_nil⟩
  · split
    · exact ⟨_, [], rfl, blank_nil⟩
    · obtain ⟨lead, tail, shape, -⟩ := encodeChar_eq_cons glyph.character
      refine ⟨' ', List.replicate tail.length ' ', by rw [bytes, shape]; rfl, fun c member => ?_⟩
      rw [List.eq_of_mem_replicate member]
      decide

private theorem exists_glyphs_of_closedAt {before gap content behind : List Char}
    {glyphs : List Glyph} (here : ClosedAt before (characters glyphs) gap content behind) :
    ∃ head inner rest, glyphs = head ++ inner ++ rest ∧ characters head = headOf gap ∧
      characters inner = content ∧ characters rest = behind := by
  obtain ⟨c, others, bracket, closing, bytes, closes⟩ := here.exists_closing
  obtain ⟨ascii, dark⟩ := shown_of_isClose closes
  have headBytes := encode_headOf [] gap
  rw [List.nil_append, List.nil_append] at headBytes
  have masked : mask glyphs = encode (keyword ++ gap) ++ Byte.openBrace ::
      (encode content ++ bracket :: encode others) := by
    have shape := congrArg encode here.spelled
    rw [closing] at shape
    simpa [headBytes, bytes, encode_characters] using shape
  obtain ⟨first, brace, inside, rfl, front, braceVisible, braceBytes, split⟩ :=
    mask_eq_append_cons masked (by decide) (by decide)
  obtain ⟨inner, last, rest, rfl, innerEq, visible, lastBytes, restEq⟩ :=
    mask_eq_append_cons split ascii dark
  have braceShown : mask [brace] = [Byte.openBrace] := by
    simp [mask, shown, braceVisible, braceBytes]
  have lastShown : mask (last :: rest) = [bracket] ++ mask rest := by
    simp [mask, shown, visible, lastBytes]
  refine ⟨first ++ [brace], inner, last :: rest, by simp, ?_, ?_, ?_⟩
  all_goals
    apply encode_injective
    rw [encode_characters]
  · rw [mask_append, front, braceShown, headBytes]
  · exact innerEq
  · rw [lastShown, restEq, closing, encode_cons, bytes]

private theorem exists_parts_of_laid {before rest : List Char} {literals : List Literal}
    (laid : Laid before rest literals) {blanks : List Char} {glyphs : List Glyph}
    (blank : Blank blanks) (spelled : rest = blanks ++ characters glyphs) :
    ∃ tail parts, glyphs = weave tail parts ∧
      literals = literalsAt (encode (before ++ blanks)).length (parts.map partOf) := by
  induction laid generalizing blanks glyphs with
  | nil before =>
    cases glyphs with
    | nil => exact ⟨[], [], rfl, rfl⟩
    | cons glyph glyphs =>
      obtain ⟨c, others, shape, -⟩ := exists_shownCharacters glyph
      simp [shape] at spelled
  | @pass before c rest literals absent laid ih =>
    cases blanks with
    | cons d blanks =>
      obtain ⟨rfl, rfl⟩ := List.cons.inj spelled
      have inner : Blank blanks := fun d member => blank d (List.mem_cons_of_mem _ member)
      obtain ⟨tail, parts, rfl, places⟩ := ih inner rfl
      exact ⟨tail, parts, rfl, by simpa using places⟩
    | nil =>
      cases glyphs with
      | nil => simp at spelled
      | cons glyph glyphs =>
        obtain ⟨d, others, shape, otherBlank⟩ := exists_shownCharacters glyph
        rw [List.nil_append, characters_cons, shape, List.cons_append] at spelled
        obtain ⟨rfl, rfl⟩ := List.cons.inj spelled
        obtain ⟨tail, parts, rfl, rfl⟩ := ih otherBlank rfl
        cases parts with
        | nil => exact ⟨glyph :: tail, [], rfl, rfl⟩
        | cons part parts =>
          refine ⟨tail, ⟨glyph :: part.gap, part.content⟩ :: parts, rfl, ?_⟩
          simp [literalsAt, partOf, shape, Nat.add_assoc]
  | @literal before rest gap content behind literals here laid ih =>
    obtain rfl : blanks = [] := by
      cases blanks with
      | nil => rfl
      | cons c blanks =>
        have split := here.spelled.symm.trans spelled
        rw [headOf_append] at split
        obtain ⟨rfl, -⟩ := List.cons.inj split
        exact absurd (blank 'r' List.mem_cons_self) (by decide)
    rw [List.nil_append] at spelled
    rw [spelled] at here
    obtain ⟨head, inner, rest, rfl, headEq, rfl, rfl⟩ := exists_glyphs_of_closedAt here
    have nothing : characters rest = [] ++ characters rest := rfl
    obtain ⟨tail, parts, rfl, rfl⟩ := ih blank_nil nothing
    refine ⟨tail, ⟨head, inner⟩ :: parts, rfl, ?_⟩
    simp [literalsAt, partOf, headEq, Nat.add_assoc]

/-- Where the contents of some parts stand, of which the first begins at `start`. -/
def spansAt (start : Nat) (parts : List (ReturnFilter.Part Glyph)) : List Span :=
  (literalsAt start (parts.map partOf)).map Literal.span

@[simp] theorem spansAt_nil (start : Nat) : spansAt start [] = [] := rfl

@[simp] theorem spansAt_cons (start : Nat) (part : ReturnFilter.Part Glyph)
    (parts : List (ReturnFilter.Part Glyph)) :
    spansAt start (part :: parts) =
      ⟨start + (mask part.gap).length,
        start + (mask part.gap).length + (mask part.content).length⟩ ::
        spansAt (start + (mask part.gap).length + (mask part.content).length) parts := by
  simp [spansAt, literalsAt, partOf, encode_characters, Literal.span]

/-- The spans of the contents cut them out again. -/
theorem map_slice_spansAt (copied tail : List Glyph) (parts : List (ReturnFilter.Part Glyph)) :
    (spansAt (mask copied).length parts).map (marked (copied ++ weave tail parts)).slice =
      parts.map fun part => marked part.content := by
  induction parts generalizing copied with
  | nil => rfl
  | cons part parts ih =>
    have first := slice_marked (copied ++ part.gap) part.content (weave tail parts)
    have others := ih (copied ++ part.gap ++ part.content)
    simp only [List.append_assoc, mask_append, List.length_append, ← Nat.add_assoc] at first others
    simp only [weave, List.append_assoc, spansAt_cons, List.map_cons, first, others]

theorem map_slice_weave (tail : List Glyph) (parts : List (ReturnFilter.Part Glyph)) :
    (spansAt 0 parts).map (marked (weave tail parts)).slice =
      parts.map fun part => marked part.content :=
  map_slice_spansAt [] tail parts

private theorem replaceFrom_weave (spell : Glyph → Text)
    (length : ∀ glyph, (spell glyph).length = glyph.bytes.length)
    {parts others : List (ReturnFilter.Part Glyph)}
    (gaps : parts.map Part.gap = others.map Part.gap) (copied tail : List Glyph) :
    Text.replaceFrom ((copied ++ weave tail parts).flatMap spell) (mask copied).length
        ((spansAt (mask copied).length parts).zip
          (others.map fun other => other.content.flatMap spell)) =
      (weave tail others).flatMap spell := by
  have lengths (glyphs : List Glyph) : (glyphs.flatMap spell).length = (mask glyphs).length := by
    simp [mask, List.length_flatMap, length]
  induction parts generalizing others copied with
  | nil =>
    obtain rfl : others = [] := by simpa using gaps
    simpa [weave] using replaceFrom_nil (lengths copied)
  | cons part parts ih =>
    cases others with
    | nil => simp at gaps
    | cons other others =>
      obtain ⟨gap, gaps⟩ := List.cons.inj gaps
      have behind := ih gaps (copied ++ part.gap ++ part.content)
      have first : (copied.flatMap spell).length + (part.gap.flatMap spell).length =
          (mask copied).length + (mask part.gap).length := by rw [lengths, lengths]
      simp only [List.flatMap_append, List.append_assoc, mask_append, List.length_append,
        ← Nat.add_assoc] at behind
      simp only [weave, List.append_assoc, List.flatMap_append, spansAt_cons, List.map_cons,
        List.zip_cons_cons, ← gap]
      rw [← List.append_assoc (copied.flatMap spell), replaceFrom_cons (lengths copied) _ _ first,
        List.append_assoc (copied.flatMap spell), behind, List.append_assoc]

theorem replace_marked {parts others : List (ReturnFilter.Part Glyph)}
    (gaps : parts.map Part.gap = others.map Part.gap) (tail : List Glyph) :
    (marked (weave tail parts)).replace
        ((spansAt 0 parts).zip (others.map fun other => marked other.content)) =
      marked (weave tail others) := by
  have texts := replaceFrom_weave bytes (fun _ => rfl) gaps [] tail
  have masks := replaceFrom_weave shown length_shown gaps [] tail
  have edits (spell : Marked → Text) :
      ((spansAt 0 parts).zip (others.map fun other => marked other.content)).map
          (fun edit => (edit.1, spell edit.2)) =
        (spansAt 0 parts).zip (others.map fun other => spell (marked other.content)) := by
    simp only [List.zip_map_right, List.map_map]
    rfl
  rw [Marked.replace, marked, Marked.mk.injEq]
  exact ⟨(congrArg (Text.replace _) (edits Marked.text)).trans texts,
    (congrArg (Text.replace _) (edits Marked.mask)).trans masks⟩

/-- Whether the outermost literals of a mask are those in the gaps. -/
def Parted (tail : List Glyph) (parts : List (ReturnFilter.Part Glyph)) : Prop :=
  Laid [] (characters (weave tail parts)) (literalsAt 0 (parts.map partOf))

theorem exists_parts (glyphs : List Glyph) :
    ∃ tail parts, glyphs = weave tail parts ∧ Parted tail parts := by
  obtain ⟨literals, laid, -⟩ := exists_laid (characters glyphs)
  obtain ⟨tail, parts, rfl, rfl⟩ := exists_parts_of_laid laid blank_nil rfl
  exact ⟨tail, parts, rfl, laid⟩

private theorem exists_literal {parts : List (ReturnFilter.Part Glyph)}
    {part : ReturnFilter.Part Glyph} (member : part ∈ parts) :
    ∃ literal ∈ literalsAt 0 (parts.map partOf), encode literal.content = mask part.content := by
  have contents : characters part.content ∈
      (literalsAt 0 (parts.map partOf)).map Literal.content := by
    rw [map_content_literalsAt, List.map_map]
    exact List.mem_map_of_mem member
  obtain ⟨literal, inside, same⟩ := List.mem_map.mp contents
  exact ⟨literal, inside, by rw [same, encode_characters]⟩

namespace Parted

variable {tail : List Glyph} {parts : List (ReturnFilter.Part Glyph)}
  {part : ReturnFilter.Part Glyph} (parted : Parted tail parts)
include parted

theorem objects : objects (mask (weave tail parts)) = spansAt 0 parts := by
  rw [← encode_characters, Laid.objects parted, spansAt]

theorem balanced (member : part ∈ parts) : Balanced (mask part.content) := by
  obtain ⟨literal, inside, same⟩ := exists_literal member
  exact same ▸ Laid.balanced parted inside

theorem shorter (member : part ∈ parts) :
    (text part.content).length + 2 ≤ (text (weave tail parts)).length := by
  obtain ⟨literal, inside, same⟩ := exists_literal member
  have lengths := Laid.shorter parted inside
  rw [same, encode_characters, length_mask, length_mask] at lengths
  exact lengths

end Parted

/-- A literal has a head in front of its content. -/
theorem Parted.gap_ne_nil {tail : List Glyph} {part : ReturnFilter.Part Glyph}
    {parts : List (ReturnFilter.Part Glyph)} (parted : Parted tail (part :: parts)) :
    part.gap ≠ [] := by
  intro nothing
  have starts := (Laid.rising parted).1 _ List.mem_cons_self
  simp [partOf, nothing] at starts

/-- A literal has a bracket behind its content. -/
theorem Parted.tail_ne_nil {tail : List Glyph} {parts : List (ReturnFilter.Part Glyph)}
    (nonempty : parts ≠ []) (parted : Parted tail parts) : tail ≠ [] := by
  rintro rfl
  have mapped : parts.map partOf ≠ [] := by simpa using nonempty
  obtain ⟨literal, member, stops⟩ := exists_last_literalsAt mapped 0
  obtain ⟨front, last, blanks, behind, split, here, starts⟩ := Laid.closed parted member
  obtain ⟨c, rest, bracket, rfl, bytes, -⟩ := here.exists_closing
  have whole := congrArg (fun characters => (encode characters).length) split
  rw [characters_weave, here.spelled] at whole
  simp only [Literal.span, starts, encode_append, encode_cons, bytes, List.length_append,
    List.length_singleton, characters_nil, List.nil_append] at whole stops
  omega

theorem marked_join (pieces : List (List Glyph)) :
    marked (join pieces) = Marked.join (pieces.map marked) := by
  have both : text (join pieces) = Text.join [Byte.comma] (pieces.map text) ∧
      mask (join pieces) = Text.join [Byte.comma] (pieces.map mask) := by
    induction pieces with
    | nil => exact ⟨rfl, rfl⟩
    | cons piece pieces ih =>
      cases pieces with
      | nil => exact ⟨rfl, rfl⟩
      | cons next pieces =>
        obtain ⟨texts, masks⟩ := ih
        have commaText (rest : List Glyph) : text (comma :: rest) = Byte.comma :: text rest := rfl
        have commaMask (rest : List Glyph) : mask (comma :: rest) = Byte.comma :: mask rest := rfl
        rw [join, text_append, mask_append, commaText, commaMask, texts, masks]
        exact ⟨(join_cons ..).symm, (join_cons ..).symm⟩
  simp only [marked, Marked.join, List.map_map, Marked.mk.injEq]
  exact both

theorem mask_join (pieces : List (List Glyph)) :
    mask (join pieces) = Text.join [Byte.comma] (pieces.map mask) := by
  have whole := congrArg Marked.mask (marked_join pieces)
  simp only [Marked.join, List.map_map] at whole
  exact whole

theorem exists_pieces {content : List Glyph} (balanced : Balanced (mask content)) :
    ∃ pieces, pieces ≠ [] ∧ content = join pieces ∧
      (∀ piece ∈ pieces, Solid Byte.comma (mask piece)) ∧
      (marked content).entries = spansOf 0 (pieces.map mask) := by
  have plain : Byte.isOpen Byte.comma = false ∧ Byte.isClose Byte.comma = false := by decide
  obtain ⟨masks, nonempty, solid, split⟩ := Text.exists_pieces plain balanced
  have cut : ∃ pieces, content = join pieces ∧ pieces.map mask = masks := by
    clear solid balanced
    induction masks generalizing content with
    | nil => exact absurd rfl nonempty
    | cons first masks ih =>
      cases masks with
      | nil => exact ⟨[content], rfl, by simpa [Text.join] using split⟩
      | cons next masks =>
        rw [join_cons] at split
        obtain ⟨piece, glyph, others, rfl, rfl, visible, bytes, split⟩ :=
          mask_eq_append_cons split (by decide) (by decide)
        obtain ⟨pieces, rfl, shapes⟩ := ih (List.cons_ne_nil _ _) split
        obtain ⟨second, pieces, rfl⟩ := List.exists_cons_of_ne_nil (l := pieces)
          (by rintro rfl; simp at shapes)
        have character : glyph.character = ',' := encodeChar_injective bytes
        have same : glyph = comma := by
          rcases glyph with ⟨c, shows⟩
          exact congrArg₂ Glyph.mk character visible
        exact ⟨piece :: second :: pieces, by rw [join, same], by simp [← shapes]⟩
  obtain ⟨pieces, rfl, rfl⟩ := cut
  refine ⟨pieces, by simpa using nonempty, rfl, by simpa using solid, ?_⟩
  rw [marked, Marked.entries, split, topLevelPieces_join plain nonempty solid]

private theorem map_slice_marked {content : List Glyph} {spans : List Span}
    {pieces : List (List Glyph)} (texts : spans.map (text content).slice = pieces.map text)
    (masks : spans.map (mask content).slice = pieces.map mask) :
    spans.map (marked content).slice = pieces.map marked := by
  induction spans generalizing pieces with
  | nil => simp_all
  | cons span spans ih =>
    cases pieces with
    | nil => simp at texts
    | cons piece pieces =>
      obtain ⟨firstText, texts⟩ := List.cons.inj texts
      obtain ⟨firstMask, masks⟩ := List.cons.inj masks
      rw [List.map_cons, List.map_cons, ih texts masks, Marked.slice, marked, firstText,
        firstMask]
      rfl

/-- The spans of the entries cut the pieces out again. -/
theorem map_slice_entries {content : List Glyph} {pieces : List (List Glyph)}
    (split : content = join pieces) :
    (spansOf 0 (pieces.map mask)).map (marked content).slice = pieces.map marked := by
  have whole := marked_join pieces
  simp only [marked, Marked.join, List.map_map, Marked.mk.injEq] at whole
  obtain ⟨texts, masks⟩ := whole
  have lengths : (pieces.map mask).map List.length = (pieces.map text).map List.length := by simp
  have textPieces := map_slice_spansOf Byte.comma [] (pieces.map text)
  have maskPieces := map_slice_spansOf Byte.comma [] (pieces.map mask)
  rw [List.nil_append, List.length_nil] at textPieces maskPieces
  rw [← spansOf_congr lengths] at textPieces
  refine map_slice_marked ?_ ?_
  · rw [split, texts]
    exact textPieces
  · rw [split, masks]
    exact maskPieces

/-- Whether the character of a glyph is white space. -/
def isBlank (glyph : Glyph) : Bool := CharacterClass.blank glyph.character.toNat

/-- A mask has white space in the place of white space. -/
theorem blank_characters {glyphs : List Glyph}
    (blank : ∀ glyph ∈ glyphs, glyph.isBlank = true) : Blank (characters glyphs) := by
  intro c member
  obtain ⟨glyph, inside, shows⟩ := List.mem_flatMap.mp member
  unfold shownCharacters at shows
  split at shows
  · obtain rfl := List.mem_singleton.mp shows
    exact blank glyph inside
  · split at shows
    · obtain rfl := List.mem_singleton.mp shows
      decide
    · rw [List.eq_of_mem_replicate shows]
      decide

theorem isBlank_takeWhile (glyphs : List Glyph) :
    ∀ glyph ∈ glyphs.takeWhile isBlank, glyph.isBlank = true := fun _ => List.mem_takeWhile_imp

theorem isBlank_rtakeWhile (glyphs : List Glyph) :
    ∀ glyph ∈ glyphs.rtakeWhile isBlank, glyph.isBlank = true := fun _ => List.mem_rtakeWhile_imp

def trim (glyphs : List Glyph) : List Glyph := (glyphs.dropWhile isBlank).rdropWhile isBlank

theorem takeWhile_append_trim (glyphs : List Glyph) :
    glyphs.takeWhile isBlank ++ trim glyphs ++ (glyphs.dropWhile isBlank).rtakeWhile isBlank =
      glyphs := by
  rw [trim, List.append_assoc, List.rdropWhile_append_rtakeWhile, List.takeWhile_append_dropWhile]

theorem trimStart_text (glyphs : List Glyph) :
    (text glyphs).trimStart = text (glyphs.dropWhile isBlank) := by
  rw [text_eq_encode, trimStart_encode, text_eq_encode, List.dropWhile_map]
  rfl

theorem trimEnd_text (glyphs : List Glyph) :
    (text glyphs).trimEnd = text (glyphs.rdropWhile isBlank) := by
  rw [text_eq_encode, trimEnd_encode, text_eq_encode, List.rdropWhile, ← List.map_reverse,
    List.dropWhile_map, ← List.map_reverse]
  rfl

private theorem length_takeWhile (glyphs : List Glyph) :
    (text glyphs).length - (text glyphs).trimStart.length =
      (mask (glyphs.takeWhile isBlank)).length := by
  have split := congrArg (fun glyphs => (text glyphs).length)
    (List.takeWhile_append_dropWhile (p := isBlank) (l := glyphs))
  simp only [text_append, List.length_append] at split
  rw [trimStart_text, length_mask]
  omega

theorem marked_trim (glyphs : List Glyph) : (marked glyphs).trim = marked (trim glyphs) := by
  have trimmed : (text glyphs).trim = text (trim glyphs) := by
    rw [Text.trim, trimStart_text, trimEnd_text, trim]
  have cut := slice_marked (glyphs.takeWhile isBlank) (trim glyphs)
    ((glyphs.dropWhile isBlank).rtakeWhile isBlank)
  rw [takeWhile_append_trim] at cut
  simp only [Marked.trim]
  rw [show (marked glyphs).text = text glyphs from rfl, length_takeWhile, trimmed, ← length_mask]
  exact cut

theorem marked_leading (glyphs : List Glyph) :
    (marked glyphs).leading = marked (glyphs.takeWhile isBlank) := by
  have cut := slice_marked [] (glyphs.takeWhile isBlank) (glyphs.dropWhile isBlank)
  rw [List.nil_append, List.takeWhile_append_dropWhile] at cut
  rw [Marked.leading, show (marked glyphs).text = text glyphs from rfl, length_takeWhile]
  simpa [mask] using cut

theorem marked_trailing (glyphs : List Glyph) :
    (marked glyphs).trailing = marked (glyphs.rtakeWhile isBlank) := by
  have split := List.rdropWhile_append_rtakeWhile (p := isBlank) (l := glyphs)
  have cut := slice_marked (glyphs.rdropWhile isBlank) (glyphs.rtakeWhile isBlank) []
  have length := congrArg (fun glyphs => (text glyphs).length) split
  simp only [text_append, List.length_append] at length
  rw [List.append_nil, split] at cut
  rw [Marked.trailing, show (marked glyphs).text = text glyphs from rfl, trimEnd_text, ← length]
  simpa using cut

end BareComponent.Glyph
