import BareComponent.Proofs.ReturnFilter.Cut

/-! # Thinning glyphs

The filter computes what it relates a script to, and what it keeps of glyphs are glyphs again: the
same gaps, and in each gap the survivors of the content. What holds of a text and what is kept of it
as soon as it holds of the surviving entries therefore holds of every run of the filter.
-/

namespace BareComponent.ReturnFilter

open Text Glyph

/-- The pieces of a content between its top-level commas. -/
structure Entries (content : List Glyph) (pieces : List (List Glyph)) : Prop where
  nonempty : pieces ≠ []
  joined : content = join pieces
  solid : ∀ piece ∈ pieces, Solid Byte.comma (mask piece)

/-- The entries whose keys are in no set of names. -/
def survivors (names : NameSet) (pieces : List (List Glyph)) : List (List Glyph) :=
  pieces.filter fun piece => !names.contains (keyOf (mask piece))

section Survivors

variable {names : NameSet} {piece : List Glyph}

theorem survivors_append (pieces others : List (List Glyph)) :
    survivors names (pieces ++ others) = survivors names pieces ++ survivors names others :=
  List.filter_append ..

theorem survivors_cons_of_named (named : names.contains (keyOf (mask piece)) = true)
    (pieces : List (List Glyph)) : survivors names (piece :: pieces) = survivors names pieces :=
  List.filter_cons_of_neg (by simp [named])

theorem survivors_cons_of_unnamed (unnamed : names.contains (keyOf (mask piece)) = false)
    (pieces : List (List Glyph)) :
    survivors names (piece :: pieces) = piece :: survivors names pieces :=
  List.filter_cons_of_pos (by simp [unnamed])

end Survivors

/-- What is kept of a content: all of it, or what is joined with the blanks around it. -/
def keep (content joined : List Glyph) (complete : Bool) : List Glyph :=
  if complete then joined
  else content.takeWhile isBlank ++ trim joined ++ content.rtakeWhile isBlank

/-- A part, and the part that is kept of it when surviving entries are kept as related. -/
def Kept (names : NameSet) (related : List Glyph → List Glyph → Prop) (part other : Part Glyph) :
    Prop :=
  part.gap = other.gap ∧ ∃ pieces rewritten, Entries part.content pieces ∧
    List.Forall₂ related (survivors names pieces) rewritten ∧
    other.content = keep part.content (join rewritten) (survivors names pieces = pieces)

theorem Kept.imp {names : NameSet} {related otherRelated : List Glyph → List Glyph → Prop}
    {part other : Part Glyph}
    (weaker : ∀ piece kept, related piece kept → otherRelated piece kept)
    (kept : Kept names related part other) : Kept names otherRelated part other := by
  obtain ⟨gap, pieces, rewritten, entries, each, content⟩ := kept
  exact ⟨gap, pieces, rewritten, entries, each.imp weaker, content⟩

section Pairs

variable {α β γ : Type} {read write : α → β} {form : γ → β} {related : γ → γ → Prop}

private theorem exists_forall₂ {positions : List α} {items : List γ}
    (reads : positions.map read = items.map form)
    (each : ∀ position ∈ positions, ∀ item ∈ items, read position = form item →
      ∃ other, write position = form other ∧ related item other) :
    ∃ others, positions.map write = others.map form ∧ List.Forall₂ related items others := by
  induction positions generalizing items with
  | nil =>
    obtain rfl : items = [] := by simpa using reads.symm
    exact ⟨[], rfl, .nil⟩
  | cons position positions ih =>
    cases items with
    | nil => simp at reads
    | cons item items =>
      obtain ⟨here, reads⟩ := List.cons.inj reads
      obtain ⟨other, written, same⟩ := each _ List.mem_cons_self _ List.mem_cons_self here
      obtain ⟨others, allWritten, allSame⟩ := ih reads fun position inside item member =>
        each position (List.mem_cons_of_mem _ inside) item (List.mem_cons_of_mem _ member)
      exact ⟨other :: others, by simp [written, allWritten], .cons same allSame⟩

end Pairs

variable {names : NameSet}

private theorem map_slice_survivors (names : NameSet) {content : List Glyph}
    {pieces : List (List Glyph)}
    (entries : (marked content).entries.map (marked content).slice = pieces.map marked) :
    ((marked content).survivors names).map (marked content).slice =
      (survivors names pieces).map marked := by
  have filtered := congrArg
    (List.filter fun entry : Marked => !names.contains (keyOf entry.mask)) entries
  rw [List.filter_map, List.filter_map] at filtered
  exact filtered

/-- What is kept of a content of glyphs are glyphs. -/
theorem keep_marked {content : List Glyph} {pieces rewritten : List (List Glyph)}
    (entries : (marked content).entries.map (marked content).slice = pieces.map marked)
    {kept : Span → Marked}
    (same : ((marked content).survivors names).map kept = rewritten.map marked) :
    (marked content).keep names kept =
      marked (keep content (join rewritten) (survivors names pieces = pieces)) := by
  have joined : Marked.join (((marked content).survivors names).map kept) =
      marked (join rewritten) := by
    rw [same, marked_join]
  have complete : (marked content).survivors names = (marked content).entries ↔
      survivors names pieces = pieces := by
    have counts := congrArg List.length entries
    have survivorCounts := congrArg List.length (map_slice_survivors names entries)
    rw [List.length_map, List.length_map] at counts survivorCounts
    have all : (marked content).survivors names = (marked content).entries ↔
        ((marked content).survivors names).length = (marked content).entries.length :=
      ⟨congrArg List.length, List.filter_sublist.eq_of_length⟩
    have allPieces : survivors names pieces = pieces ↔
        (survivors names pieces).length = pieces.length :=
      ⟨congrArg List.length, List.filter_sublist.eq_of_length⟩
    rw [all, allPieces, counts, survivorCounts]
  by_cases all : survivors names pieces = pieces
  · rw [Marked.keep, if_pos (complete.mpr all), joined, keep, decide_eq_true all, if_pos rfl]
  · rw [Marked.keep, if_neg (mt complete.mp all), joined, keep, decide_eq_false all,
      if_neg Bool.false_ne_true, marked_trim, marked_leading, marked_trailing]
    simp only [Marked.append, marked, text_append, mask_append]

private theorem exists_kept {motive : List Glyph → List Glyph → Prop} {part : Part Glyph}
    (balanced : Balanced (mask part.content)) {rewritten : Span → Marked}
    (each : ∀ entry ∈ (marked part.content).survivors names, ∀ piece : List Glyph,
      (marked part.content).slice entry = marked piece →
        ∃ other, rewritten entry = marked other ∧ motive piece other) :
    ∃ other, (marked part.content).keep names rewritten = marked other.content ∧
      Kept names motive part other := by
  obtain ⟨pieces, nonempty, joined, solid, spans⟩ := exists_pieces balanced
  have cut := map_slice_entries joined
  rw [← spans] at cut
  obtain ⟨kept, written, related⟩ : ∃ kept,
      ((marked part.content).survivors names).map rewritten = kept.map marked ∧
        List.Forall₂ motive (survivors names pieces) kept :=
    exists_forall₂ (map_slice_survivors names cut) fun entry survives piece _ same =>
      each entry survives piece same
  exact ⟨⟨part.gap, _⟩, keep_marked cut written, rfl, pieces, kept, ⟨nonempty, joined, solid⟩,
    related, rfl⟩

private theorem exists_others {motive : List Glyph → List Glyph → Prop} {tail : List Glyph}
    {parts : List (Part Glyph)} (parted : Parted tail parts) {rewritten : Span → Span → Marked}
    (each : ∀ object ∈ spansAt 0 parts,
      ∀ entry ∈ ((marked (weave tail parts)).slice object).survivors names, ∀ piece : List Glyph,
        ((marked (weave tail parts)).slice object).slice entry = marked piece →
          ∃ other, rewritten object entry = marked other ∧ motive piece other) :
    ∃ others : List (Part Glyph),
      (marked (weave tail parts)).replace ((spansAt 0 parts).map fun object =>
        (object, ((marked (weave tail parts)).slice object).keep names (rewritten object))) =
          marked (weave tail others) ∧
      List.Forall₂ (Kept names motive) parts others := by
  obtain ⟨others, written, related⟩ : ∃ others : List (Part Glyph),
      (spansAt 0 parts).map (fun object =>
        ((marked (weave tail parts)).slice object).keep names (rewritten object)) =
          others.map (fun part => marked part.content) ∧
        List.Forall₂ (Kept names motive) parts others := by
    refine exists_forall₂ (map_slice_weave tail parts) fun object inside part member content => ?_
    have each := each object inside
    rw [content] at each ⊢
    exact exists_kept (parted.balanced member) each
  have gaps : parts.map Part.gap = others.map Part.gap := by
    rw [← List.forall₂_eq_eq_eq, List.forall₂_map_left_iff, List.forall₂_map_right_iff]
    exact related.imp fun _ _ same => same.1
  refine ⟨others, ?_, related⟩
  rw [← replace_marked gaps tail, ← written, List.map_prod_left_eq_zip]

private theorem spans_eq {tail : List Glyph} {parts : List (Part Glyph)}
    (parted : Parted tail parts) {spans : List Span}
    (rising : spans.Pairwise fun first second => first.start < second.start)
    (outermost : ∀ span, span ∈ spans ↔ Outermost (mask (weave tail parts)) span) :
    spans = spansAt 0 parts := by
  rw [← parted.objects, ← encode_characters]
  exact eq_objects rising (by rwa [encode_characters])

/-- A property of what is filtered and what is kept holds if it passes from entries to texts. -/
theorem Filtered.thinned {motive : List Glyph → List Glyph → Prop}
    (step : ∀ {tail : List Glyph} {parts others : List (Part Glyph)}, Parted tail parts →
      List.Forall₂ (Kept names motive) parts others → motive (weave tail parts) (weave tail others))
    {glyphs : List Glyph} {kept : Marked} (filtered : Filtered names (marked glyphs) kept) :
    ∃ others, kept = marked others ∧ motive glyphs others := by
  generalize whole : marked glyphs = script at filtered
  induction filtered generalizing glyphs with
  | @intro script spans rising outermost rewritten entries ih =>
    subst whole
    obtain ⟨tail, parts, rfl, parted⟩ := exists_parts glyphs
    obtain rfl := spans_eq parted rising outermost
    obtain ⟨others, shape, related⟩ := exists_others parted fun object inside entry survives piece
      same => ih object inside entry survives same.symm
    exact ⟨weave tail others, shape, step parted related⟩

/-- What is kept of a text is made of its gaps and of what is kept of its literals. -/
theorem Filtered.exists_parts {motive : List Glyph → List Glyph → Prop} {tail : List Glyph}
    {parts : List (Part Glyph)} (parted : Parted tail parts) {kept : Marked}
    (filtered : Filtered names (marked (weave tail parts)) kept)
    (related : ∀ {piece : List Glyph} {kept : Marked}, Filtered names (marked piece) kept →
      ∃ other, kept = marked other ∧ motive piece other) :
    ∃ others, kept = marked (weave tail others) ∧
      List.Forall₂ (Kept names motive) parts others := by
  generalize whole : marked (weave tail parts) = script at filtered
  cases filtered with
  | intro spans rising outermost rewritten entries =>
    subst whole
    obtain rfl := spans_eq parted rising outermost
    exact exists_others parted fun object inside entry survives piece same =>
      related (same ▸ entries object inside entry survives)

theorem Entries.entriesOf {content : List Glyph} {pieces : List (List Glyph)}
    (entries : Entries content pieces) : entriesOf (mask content) = pieces.map Glyph.mask := by
  have cut := map_slice_spansOf Byte.comma [] (pieces.map Glyph.mask)
  rw [ReturnFilter.entriesOf, entries.joined, mask_join, topLevelPieces_join (by decide)
    (by simpa using entries.nonempty) (by simpa using entries.solid)]
  exact cut

/-- Content is settled exactly if none of its entries is named and each of them is settled. -/
theorem Entries.settledInside_iff {content : List Glyph} {pieces : List (List Glyph)}
    (entries : Entries content pieces) :
    SettledInside names (Glyph.mask content) ↔ ∀ piece ∈ pieces,
      names.contains (keyOf (Glyph.mask piece)) = false ∧ Settled names (Glyph.mask piece) := by
  rw [SettledInside, entries.entriesOf, List.forall_mem_map]

/-- A script is settled exactly if the content of each of its objects is. -/
theorem settled_weave {tail : List Glyph} {parts : List (Part Glyph)}
    (parted : Parted tail parts) : Settled names (mask (weave tail parts)) ↔
      ∀ part ∈ parts, SettledInside names (mask part.content) := by
  rw [← encode_characters, settled_iff parted, ← List.forall_mem_map (f := Literal.content)
    (P := fun content => SettledInside names (encode content)), map_content_literalsAt,
    List.map_map, List.forall_mem_map]
  simp only [Function.comp_apply, partOf, encode_characters]

private theorem exists_content {glyphs : List Glyph} {object : Span}
    (member : object ∈ objects (mask glyphs)) :
    ∃ content, (marked glyphs).slice object = marked content ∧ Balanced (mask content) ∧
      (text content).length + 2 ≤ (text glyphs).length := by
  obtain ⟨tail, parts, rfl, parted⟩ := exists_parts glyphs
  rw [parted.objects] at member
  have found := List.mem_map_of_mem (f := (marked (weave tail parts)).slice) member
  rw [map_slice_weave] at found
  obtain ⟨part, inside, content⟩ := List.mem_map.mp found
  exact ⟨part.content, content.symm, parted.balanced inside, parted.shorter inside⟩

private theorem exists_entry {content : List Glyph} {entry : Span}
    (balanced : Balanced (mask content)) (member : entry ∈ (marked content).entries) :
    ∃ piece, (marked content).slice entry = marked piece ∧
      (text piece).length ≤ (text content).length := by
  obtain ⟨pieces, -, joined, -, spans⟩ := exists_pieces balanced
  rw [spans] at member
  have cut := List.mem_map_of_mem (f := (marked content).slice) member
  rw [map_slice_entries joined] at cut
  obtain ⟨piece, -, same⟩ := List.mem_map.mp cut
  refine ⟨piece, same.symm, ?_⟩
  rw [show text piece = (marked piece).text from rfl, same]
  simp [Marked.slice, Text.slice, marked]

private theorem text_keep (content : Marked) (kept : Span → Marked) :
    (content.keep names kept).text =
      assemble content.text ((content.survivors names).length != content.entries.length)
        ((content.survivors names).map fun entry => (kept entry).text) := by
  have joined : (Marked.join ((content.survivors names).map kept)).text =
      Text.join [Byte.comma] ((content.survivors names).map fun entry => (kept entry).text) := by
    rw [Marked.join, List.map_map]
    rfl
  have all : content.survivors names = content.entries ↔
      (content.survivors names).length = content.entries.length :=
    ⟨congrArg List.length, List.filter_sublist.eq_of_length⟩
  rw [Marked.keep, assemble]
  by_cases same : content.survivors names = content.entries
  · rw [if_pos same, all.mp same, bne_self_eq_false, if_neg Bool.false_ne_true, joined]
  · rw [if_neg same, if_pos (bne_iff_ne.mpr (mt all.mpr same))]
    simp only [Marked.append, Marked.trim, Marked.slice, slice_trim, joined]
    simp [Marked.leading, Marked.trailing, Marked.slice, slice, leadingBlanks, trailingBlanks]

/-- The filter computes what the relation says. -/
theorem exists_filtered (names : NameSet) (fuel : Nat) (glyphs : List Glyph)
    (enough : (text glyphs).length < fuel) : ∃ kept, Filtered names (marked glyphs) kept ∧
      kept.text = filterText names fuel (text glyphs) (mask glyphs) := by
  induction fuel using Nat.strongRecOn generalizing glyphs with
  | ind fuel ih =>
    obtain ⟨fuel, rfl⟩ : ∃ smaller, fuel = smaller + 1 := Nat.exists_eq_add_one.mpr (by omega)
    have each : ∀ object ∈ objects (mask glyphs),
        ∀ entry ∈ ((marked glyphs).slice object).survivors names,
        ∃ kept, Filtered names (((marked glyphs).slice object).slice entry) kept ∧
          kept.text = filterText names (fuel - 1)
            (((marked glyphs).slice object).slice entry).text
            (((marked glyphs).slice object).slice entry).mask := by
      intro object inside entry survives
      obtain ⟨content, contentEq, balanced, shorter⟩ := exists_content inside
      rw [contentEq] at survives ⊢
      obtain ⟨piece, shape, noLonger⟩ := exists_entry balanced (List.mem_of_mem_filter survives)
      rw [shape]
      exact ih (fuel - 1) (by omega) piece (by omega)
    choose! kept filtered computed using each
    have found : objects (mask glyphs) = objects (encode (characters glyphs)) := by
      rw [encode_characters]
    refine ⟨_, .intro (objects (mask glyphs)) (found ▸ objects_rising _)
      (fun object => by rw [found, mem_objects_iff, encode_characters]; rfl) kept filtered, ?_⟩
    rw [filterText, Marked.replace, List.map_map]
    refine congrArg (Text.replace (text glyphs)) (List.map_congr_left fun object inside => ?_)
    refine congrArg (Prod.mk object) ((text_keep _ _).trans ?_)
    obtain ⟨content, -, -, shorter⟩ := exists_content inside
    obtain ⟨fuel, rfl⟩ : ∃ smaller, fuel = smaller + 1 := Nat.exists_eq_add_one.mpr (by omega)
    rw [filterObject]
    exact congrArg (assemble _ _) (List.map_congr_left (computed object inside))

end BareComponent.ReturnFilter
