import BareComponent.Proofs.Mask.Lines
import BareComponent.Proofs.ReturnFilter.Edges
import BareComponent.Proofs.ReturnFilter.Tail

/-! # Filtering what is all shown

Where a mask shows everything, what is kept of some glyphs is one list of glyphs, and it is shown
too. Blanks around the glyphs stay, and inside a literal that is not all blank it is the blanks at
the edges that stay, whether an entry is dropped or not. What stands between them does not depend on
blanks around the content.
-/

namespace BareComponent.ReturnFilter

open Text Pattern Glyph

/-- Whether all of some glyphs are shown. -/
def Shown (glyphs : List Glyph) : Prop := ∀ glyph ∈ glyphs, glyph.visible = true

/-- What the filter makes of some glyphs. -/
structure Keeps (names : NameSet) (glyphs kept : List Glyph) : Prop where
  filtered : Filtered names (marked glyphs) (marked kept)
  thins : Thins names glyphs kept

section Shown

variable {glyphs others : List Glyph}

theorem shown_append : Shown (glyphs ++ others) ↔ Shown glyphs ∧ Shown others :=
  List.forall_mem_append

theorem Shown.of_sublist (shown : Shown glyphs) (sublist : others.Sublist glyphs) :
    Shown others := fun glyph member => shown glyph (sublist.subset member)

/-- A text in which everything is shown is its own mask. -/
theorem Shown.mask_eq (shown : Shown glyphs) : mask glyphs = text glyphs := by
  induction glyphs with
  | nil => rfl
  | cons glyph glyphs ih =>
    obtain ⟨visible, rest⟩ := List.forall_mem_cons.mp shown
    have here : glyph.shown = glyph.bytes := by simp [Glyph.shown, visible]
    change glyph.shown ++ mask glyphs = glyph.bytes ++ text glyphs
    rw [here, ih rest]

/-- Shown glyphs are told by the text that they spell. -/
theorem Shown.eq_of_text (shown : Shown glyphs) (otherShown : Shown others)
    (same : text glyphs = text others) : glyphs = others := by
  have rebuilt {glyphs : List Glyph} (shown : Shown glyphs) :
      (glyphs.map Glyph.character).map (Glyph.mk · true) = glyphs := by
    have each : ∀ glyph ∈ glyphs, (Glyph.mk · true) (Glyph.character glyph) = glyph := by
      rintro ⟨c, visible⟩ member
      obtain rfl : visible = true := shown _ member
      rfl
    rw [List.map_map]
    exact (List.map_congr_left each).trans (List.map_id' glyphs)
  rw [text_eq_encode, text_eq_encode] at same
  rw [← rebuilt shown, encode_injective same, rebuilt otherShown]

/-- Some characters as shown glyphs. -/
def shownOf (characters : List Char) : List Glyph := characters.map (Glyph.mk · true)

theorem shown_shownOf (characters : List Char) : Shown (shownOf characters) := by
  intro glyph member
  obtain ⟨c, -, rfl⟩ := List.mem_map.mp member
  rfl

@[simp] theorem text_shownOf (characters : List Char) :
    text (shownOf characters) = encode characters := by
  rw [text_eq_encode, shownOf, List.map_map]
  exact congrArg encode (List.map_id' characters)

@[simp] theorem characters_shownOf (characters : List Char) :
    Glyph.characters (shownOf characters) = characters := by
  apply encode_injective
  rw [encode_characters, (shown_shownOf characters).mask_eq, text_shownOf]

end Shown

variable {names : NameSet} {glyphs kept other : List Glyph}

/-- Every list of glyphs is rewritten to something. -/
theorem exists_keeps (identifiers : names.Identifiers) (glyphs : List Glyph) :
    ∃ kept, Keeps names glyphs kept := by
  obtain ⟨result, filtered, -⟩ := exists_filtered names _ glyphs (Nat.lt_succ_self _)
  obtain ⟨kept, rfl, thins⟩ := filtered.exists_thins identifiers
  exact ⟨kept, filtered, thins⟩

namespace Keeps

theorem shown (keeps : Keeps names glyphs kept) (all : Shown glyphs) : Shown kept :=
  all.of_sublist keeps.thins.sublist

/-- What is shown is rewritten in one way. -/
theorem unique (keeps : Keeps names glyphs kept) (again : Keeps names glyphs other)
    (all : Shown glyphs) : kept = other :=
  (keeps.shown all).eq_of_text (again.shown all)
    (congrArg Marked.text (keeps.filtered.unique again.filtered))

/-- The rewriting is what the filter answers, given enough fuel. -/
theorem text_eq (keeps : Keeps names glyphs kept) {fuel : Nat}
    (enough : (text glyphs).length < fuel) :
    text kept = filterText names fuel (text glyphs) (mask glyphs) := by
  obtain ⟨result, filtered, computed⟩ := exists_filtered names fuel glyphs enough
  rw [← computed, ← keeps.filtered.unique filtered]
  rfl

/-- Where no bracket closes, all is kept. -/
theorem of_unclosed (identifiers : names.Identifiers)
    (unclosed : ∀ b ∈ mask glyphs, Byte.isClose b = false) : Keeps names glyphs glyphs := by
  obtain ⟨kept, keeps⟩ := exists_keeps identifiers glyphs
  have settled : Settled names (mask glyphs) := by
    rw [← encode_characters] at unclosed ⊢
    rw [settled_iff (laid_unclosed unclosed)]
    simp
  have same := keeps.thins.same settled
  rwa [same] at keeps

/-- Blanks are kept. -/
theorem of_blank (identifiers : names.Identifiers)
    (blank : ∀ glyph ∈ glyphs, glyph.isBlank = true) : Keeps names glyphs glyphs := by
  refine of_unclosed identifiers fun b member => ?_
  rw [← encode_characters] at member
  exact ((blank_characters blank).no_brackets b member).2

/-- What is kept settles: a second filter finds nothing more to drop. -/
theorem settles (keeps : Keeps names glyphs kept) (identifiers : names.Identifiers) :
    Settles names glyphs kept := by
  obtain ⟨others, same, settles⟩ := keeps.filtered.exists_settles identifiers
  have masks : mask kept = mask others := congrArg Marked.mask same
  have spelled : characters kept = characters others := by
    apply encode_injective
    rw [encode_characters, encode_characters, masks]
  exact ⟨spelled ▸ settles.alike, masks ▸ settles.settled⟩

/-- What is kept of shown glyphs are their gaps with what is kept of the contents, and the literals
of these are in the same gaps. -/
theorem exists_parts (identifiers : names.Identifiers) {tail : List Glyph}
    {parts : List (Part Glyph)} (parted : Parted tail parts) (all : Shown (weave tail parts))
    (keeps : Keeps names (weave tail parts) kept) :
    ∃ others, kept = weave tail others ∧ List.Forall₂ (Kept names (Keeps names)) parts others ∧
      Parted tail others := by
  obtain ⟨others, same, related⟩ := keeps.filtered.exists_parts (motive := Keeps names) parted
    fun filtered => by
      obtain ⟨other, rfl, thins⟩ := filtered.exists_thins identifiers
      exact ⟨other, rfl, filtered, thins⟩
  have thins := thins_weave identifiers parted (related.imp fun _ _ kept =>
    kept.imp fun _ _ keeps => keeps.thins)
  have settles : List.Forall₂ (Kept names (Settles names)) parts others :=
    related.imp fun _ _ kept => kept.imp fun _ _ keeps => keeps.settles identifiers
  refine ⟨others, ?_, related, (exchange_kept identifiers parted settles).2⟩
  exact (keeps.shown all).eq_of_text (all.of_sublist thins.sublist) (congrArg Marked.text same)

/-- Blanks around some glyphs are kept around what is kept of these. -/
theorem padded (identifiers : names.Identifiers) {front behind : List Glyph}
    (all : Shown (front ++ glyphs ++ behind)) (blank : ∀ glyph ∈ front, glyph.isBlank = true)
    (blankBehind : ∀ glyph ∈ behind, glyph.isBlank = true) (keeps : Keeps names glyphs kept) :
    Keeps names (front ++ glyphs ++ behind) (front ++ kept ++ behind) := by
  obtain ⟨whole, wholeKeeps⟩ := exists_keeps identifiers (front ++ glyphs ++ behind)
  have unclosed {glyphs : List Glyph} (blank : ∀ glyph ∈ glyphs, glyph.isBlank = true) :
      ∀ b ∈ mask glyphs, Byte.isClose b = false := fun b member =>
    ((blank_characters blank).no_brackets b (encode_characters glyphs ▸ member)).2
  have string (glyphs : List Glyph) : IsString (mask glyphs) :=
    ⟨characters glyphs, (encode_characters glyphs).symm⟩
  have split : objects (mask front ++ mask glyphs) =
      objects (mask front) ++ (objects (mask glyphs)).map (Span.shift · (mask front).length) := by
    have lead := blank_characters blank
    have isSealed : Sealed [] (characters front) (characters glyphs) := Sealed.of_blank lead
    have cut := objects_append isSealed (isWord_of_blank lead)
    rwa [encode_append, encode_characters, encode_characters] at cut
  have computed : text whole = text (front ++ kept ++ behind) := by
    have enough : (text glyphs).length < (text (front ++ glyphs ++ behind)).length + 1 := by
      simp only [text_append, List.length_append]
      omega
    rw [wholeKeeps.text_eq (Nat.lt_succ_self _), text_append (front ++ glyphs), text_append front,
      mask_append (front ++ glyphs), mask_append front,
      filterText_append_unclosed ((string front).append (string glyphs)) (string behind)
        (unclosed blankBehind) (by simp), filterText_append (string front) (by simp) split,
      filterText_of_objects (objects_unclosed (string front) (unclosed blank)),
      ← text_append front, ← text_append, ← keeps.text_eq enough, ← text_append, ← text_append]
  have same : whole = front ++ kept ++ behind := by
    refine (wholeKeeps.shown all).eq_of_text ?_ computed
    obtain ⟨inside, last⟩ := shown_append.mp all
    obtain ⟨first, inner⟩ := shown_append.mp inside
    exact shown_append.mpr ⟨shown_append.mpr ⟨first, keeps.shown inner⟩, last⟩
  exact same ▸ wholeKeeps

/-- What is kept of shown glyphs begins and ends as they do. -/
theorem ends_eq (keeps : Keeps names glyphs kept) (identifiers : names.Identifiers)
    (all : Shown glyphs) :
    kept.head? = glyphs.head? ∧ kept.reverse.head? = glyphs.reverse.head? := by
  obtain ⟨tail, parts, rfl, parted⟩ := Glyph.exists_parts glyphs
  obtain ⟨others, rfl, related, -⟩ := keeps.exists_parts identifiers parted all
  cases related with
  | nil => exact ⟨rfl, rfl⟩
  | @cons part other parts others here related =>
    obtain ⟨gap, -⟩ := here
    have someGap : part.gap ≠ [] := parted.gap_ne_nil
    have someTail : tail ≠ [] := parted.tail_ne_nil (List.cons_ne_nil _ _)
    have last (parts : List (Part Glyph)) :
        (weave tail parts).reverse.head? = tail.reverse.head? := by
      rw [weave_eq_append, List.reverse_append, List.head?_append_of_ne_nil]
      simpa using someTail
    refine ⟨?_, by rw [last, last]⟩
    rw [weave, weave, ← gap, List.append_assoc, List.append_assoc,
      List.head?_append_of_ne_nil _ someGap, List.head?_append_of_ne_nil _ someGap]

/-- What is kept of shown glyphs has the blanks at its edges that they have, and is all blank only
if they are. -/
theorem edges_eq (keeps : Keeps names glyphs kept) (identifiers : names.Identifiers)
    (all : Shown glyphs) : kept.takeWhile isBlank = glyphs.takeWhile isBlank ∧
      kept.rtakeWhile isBlank = glyphs.rtakeWhile isBlank ∧
      (weight kept = 0 → weight glyphs = 0) := by
  by_cases dark : weight glyphs = 0
  · have same := keeps.unique (of_blank identifiers (weight_eq_zero.mp dark)) all
    rw [same]
    exact ⟨rfl, rfl, id⟩
  · obtain ⟨inner, innerKeeps⟩ := exists_keeps identifiers (trim glyphs)
    have split := eq_trim dark
    have paddedAll := split ▸ all
    have whole := innerKeeps.padded identifiers paddedAll (isBlank_takeWhile glyphs)
      (isBlank_rtakeWhile glyphs)
    rw [← split] at whole
    obtain rfl := keeps.unique whole all
    obtain ⟨leadAll, -⟩ := shown_append.mp paddedAll
    obtain ⟨first, last⟩ := innerKeeps.ends_eq identifiers (shown_append.mp leadAll).2
    have nonempty : inner ≠ [] := by
      rintro rfl
      exact trim_ne_nil dark (List.head?_eq_none_iff.mp first.symm)
    have begins := first ▸ head?_trim glyphs
    obtain ⟨lead, trail⟩ := edges_padded (isBlank_takeWhile glyphs) (isBlank_rtakeWhile glyphs)
      nonempty begins (last ▸ head?_reverse_trim glyphs)
    refine ⟨lead, trail, fun light => absurd ?_ (weight_ne_zero nonempty begins)⟩
    rw [weight_append, weight_append] at light
    omega

end Keeps

/-- Whether a text has no quotes, no backticks and no slashes. -/
def Unquoted (text : Text) : Prop :=
  ∀ b ∈ text, b ≠ Byte.singleQuote ∧ b ≠ Byte.doubleQuote ∧ b ≠ Byte.backtick ∧ b ≠ Byte.slash

instance (text : Text) : Decidable (Unquoted text) :=
  inferInstanceAs (Decidable (∀ b ∈ text, b ≠ Byte.singleQuote ∧ b ≠ Byte.doubleQuote ∧
    b ≠ Byte.backtick ∧ b ≠ Byte.slash))

/-- Without quotes and slashes nothing is hidden. -/
theorem Unquoted.mask_eq {text : Text} (unquoted : Unquoted text) : text.mask = text := by
  rw [mask_eq_scan]
  exact (Scanner.settles_plain unquoted none).1

/-- In a text without quotes a run sees all glyphs. -/
theorem Keeps.apply_eq {names : NameSet} {glyphs kept : List Glyph}
    (keeps : Keeps names glyphs kept) (all : Shown glyphs) (unquoted : Unquoted (text glyphs)) :
    apply names (text glyphs) = text kept := by
  rw [apply, unquoted.mask_eq]
  split
  · next empty => rw [keeps.thins.same fun key _ => contains_of_isEmpty empty key]
  · rw [keeps.text_eq (Nat.lt_succ_self _), all.mask_eq]

section Pieces

variable {content core : List Glyph} {pieces others rewritten : List (List Glyph)}

theorem Entries.sublist (entries : Entries content pieces) {piece : List Glyph}
    (member : piece ∈ pieces) : piece.Sublist content := by
  rw [entries.joined]
  exact join_sublist (List.singleton_sublist.mpr member)

/-- The pieces of shown glyphs are shown. -/
theorem Entries.shown (entries : Entries content pieces) (all : Shown content)
    {piece : List Glyph} (member : piece ∈ pieces) : Shown piece :=
  all.of_sublist (entries.sublist member)

/-- Content that is shown is cut into entries in one way. -/
theorem Entries.unique (entries : Entries content pieces) (again : Entries content others)
    (all : Shown content) : pieces = others := by
  have same := entries.entriesOf.symm.trans again.entriesOf
  have shown : ∀ piece ∈ pieces, Shown piece := fun _ => entries.shown all
  have otherShown : ∀ piece ∈ others, Shown piece := fun _ => again.shown all
  clear entries again
  induction pieces generalizing others with
  | nil => simpa using same.symm
  | cons piece pieces ih =>
    obtain ⟨other, others, rfl⟩ := List.exists_cons_of_ne_nil (l := others)
      (by rintro rfl; simp at same)
    obtain ⟨first, same⟩ := List.cons.inj same
    obtain ⟨pieceShown, shown⟩ := List.forall_mem_cons.mp shown
    obtain ⟨otherPieceShown, otherShown⟩ := List.forall_mem_cons.mp otherShown
    rw [pieceShown.mask_eq, otherPieceShown.mask_eq] at first
    rw [pieceShown.eq_of_text otherPieceShown first, ih same shown otherShown]

theorem exists_keeps_all (identifiers : names.Identifiers) (pieces : List (List Glyph)) :
    ∃ rewritten, List.Forall₂ (Keeps names) pieces rewritten := by
  choose keep keeps using exists_keeps identifiers
  exact ⟨pieces.map keep, List.forall₂_map_right_iff.mpr (List.forall₂_same.mpr fun piece _ =>
    keeps piece)⟩

theorem keeps_all_unique (keeps : List.Forall₂ (Keeps names) pieces rewritten)
    (again : List.Forall₂ (Keeps names) pieces others) (all : ∀ piece ∈ pieces, Shown piece) :
    rewritten = others := by
  induction keeps generalizing others with
  | nil =>
    cases again
    rfl
  | cons here _ ih =>
    cases again with
    | cons there again =>
      obtain ⟨shown, all⟩ := List.forall_mem_cons.mp all
      rw [here.unique there shown, ih again all]

private theorem exists_concat_of_forall₂ {α β : Type} {related : α → β → Prop} {items : List α}
    {item : α} {images : List β} (each : List.Forall₂ related (items ++ [item]) images) :
    ∃ front image, images = front ++ [image] ∧ List.Forall₂ related items front ∧
      related item image := by
  induction items generalizing images with
  | nil =>
    cases each with
    | cons here rest =>
      cases rest
      exact ⟨[], _, rfl, .nil, here⟩
  | cons first items ih =>
    cases each with
    | cons here rest =>
      obtain ⟨front, image, rfl, others, last⟩ := ih rest
      exact ⟨_ :: front, image, rfl, .cons here others, last⟩

/-- Pieces that are kept and joined have the blanks at their edges that they had, and are all blank
only if they were. -/
theorem join_edges_eq (identifiers : names.Identifiers)
    (keeps : List.Forall₂ (Keeps names) pieces rewritten) (all : ∀ piece ∈ pieces, Shown piece)
    (nonempty : pieces ≠ []) :
    (join rewritten).takeWhile isBlank = (join pieces).takeWhile isBlank ∧
      (join rewritten).rtakeWhile isBlank = (join pieces).rtakeWhile isBlank ∧
      (weight (join rewritten) = 0 → weight (join pieces) = 0) := by
  refine ⟨?_, ?_, ?_⟩
  · cases keeps with
    | nil => rfl
    | cons here _ =>
      rw [takeWhile_join, takeWhile_join]
      exact (here.edges_eq identifiers (all _ List.mem_cons_self)).1
  · obtain ⟨pieces, piece, rfl⟩ := (List.eq_nil_or_concat pieces).resolve_left nonempty
    rw [List.concat_eq_append] at keeps all ⊢
    obtain ⟨front, last, rfl, -, here⟩ := exists_concat_of_forall₂ keeps
    rw [rtakeWhile_join, rtakeWhile_join]
    exact (here.edges_eq identifiers (all _ (by simp))).2.1
  · intro light
    rw [weight_join] at light ⊢
    have weights : (pieces.map weight).sum = 0 := by
      have blank : (rewritten.map weight).sum = 0 := by omega
      clear light nonempty
      induction keeps with
      | nil => rfl
      | cons here _ ih =>
        obtain ⟨shown, others⟩ := List.forall_mem_cons.mp all
        simp only [List.map_cons, List.sum_cons] at blank ⊢
        have first := (here.edges_eq identifiers shown).2.2 (by omega)
        have rest := ih others (by omega)
        omega
    have lengths := keeps.length_eq
    omega

/-- The entries that are kept of a content are cut as they are joined, and are shown if it is. -/
theorem Entries.join_rewritten (identifiers : names.Identifiers) (entries : Entries content pieces)
    (keeps : List.Forall₂ (Keeps names) (survivors names pieces) rewritten)
    (nonempty : rewritten ≠ []) (all : Shown content) : Entries (join rewritten) rewritten ∧ Shown (join rewritten) := by
  have inside := join_sublist_join (keeps.imp fun _ _ keeps => keeps.thins.sublist)
  have survive : ∀ piece ∈ survivors names pieces, Solid Byte.comma (mask piece) :=
    fun piece member => entries.solid piece (List.mem_of_mem_filter member)
  have solid : ∀ kept ∈ rewritten, Solid Byte.comma (mask kept) := by
    clear inside nonempty
    generalize survivors names pieces = kept at keeps survive
    induction keeps with
    | nil => simp
    | cons here _ ih =>
      obtain ⟨first, others⟩ := List.forall_mem_cons.mp survive
      rw [← encode_characters] at first
      have keptSolid := (here.settles identifiers).alike.solid first
      rw [encode_characters] at keptSolid
      exact List.forall_mem_cons.mpr ⟨keptSolid, ih others⟩
  refine ⟨⟨nonempty, rfl, solid⟩, all.of_sublist ?_⟩
  rw [entries.joined]
  exact inside.trans (join_sublist List.filter_sublist)

/-- What is between the blanks of what is kept of a content. -/
def Core (names : NameSet) (content core : List Glyph) : Prop :=
  ∃ pieces rewritten, Entries content pieces ∧
    List.Forall₂ (Keeps names) (survivors names pieces) rewritten ∧ core = trim (join rewritten)

/-- Balanced content has a core. -/
theorem exists_core (identifiers : names.Identifiers) (balanced : Balanced (mask content)) :
    ∃ core, Core names content core := by
  obtain ⟨pieces, nonempty, joined, solid, -⟩ := exists_pieces balanced
  obtain ⟨rewritten, keeps⟩ := exists_keeps_all identifiers (survivors names pieces)
  exact ⟨_, pieces, rewritten, ⟨nonempty, joined, solid⟩, keeps, rfl⟩

/-- Content that is shown has one core. -/
theorem Core.unique {other : List Glyph} (here : Core names content core)
    (there : Core names content other) (all : Shown content) : core = other := by
  obtain ⟨pieces, rewritten, entries, keeps, rfl⟩ := here
  obtain ⟨others, again, otherEntries, otherKeeps, rfl⟩ := there
  obtain rfl := entries.unique otherEntries all
  have shown : ∀ piece ∈ survivors names pieces, Shown piece := fun piece member =>
    entries.shown all (List.mem_of_mem_filter member)
  rw [keeps_all_unique keeps otherKeeps shown]

/-- A core neither begins nor ends with a blank. -/
theorem Core.ends (here : Core names content core) :
    (∀ glyph ∈ core.head?, glyph.isBlank = false) ∧
      ∀ glyph ∈ core.reverse.head?, glyph.isBlank = false := by
  obtain ⟨pieces, rewritten, -, -, rfl⟩ := here
  exact ⟨head?_trim _, head?_reverse_trim _⟩

variable (identifiers : names.Identifiers)
include identifiers

private theorem Core.append_left {front : List Glyph} (all : Shown (front ++ content))
    (blank : ∀ glyph ∈ front, glyph.isBlank = true) (here : Core names content core) :
    Core names (front ++ content) core := by
  obtain ⟨pieces, rewritten, ⟨nonempty, joined, solid⟩, keeps, rfl⟩ := here
  obtain ⟨piece, pieces, rfl⟩ := List.exists_cons_of_ne_nil nonempty
  obtain ⟨first, others⟩ := List.forall_mem_cons.mp solid
  have nothing : ∀ glyph ∈ ([] : List Glyph), glyph.isBlank = true := by simp
  have frontSolid := (solid_mask_padded blank nothing piece).mpr first
  have key := keyOf_mask_padded blank nothing piece
  rw [List.append_nil] at frontSolid key
  have entries : Entries (front ++ content) ((front ++ piece) :: pieces) :=
    ⟨List.cons_ne_nil _ _, by rw [join_append_cons, ← joined],
      List.forall_mem_cons.mpr ⟨frontSolid, others⟩⟩
  cases named : names.contains (keyOf (mask piece)) with
  | true =>
    refine ⟨_, rewritten, entries, ?_, rfl⟩
    rw [survivors_cons_of_named named] at keeps
    rwa [survivors_cons_of_named (key ▸ named)]
  | false =>
    rw [survivors_cons_of_unnamed named] at keeps
    cases keeps with
    | @cons _ kept _ others here keeps =>
      have shown : Shown (front ++ piece ++ []) := by
        rw [List.append_nil]
        exact entries.shown all List.mem_cons_self
      have moved := here.padded identifiers shown blank nothing
      rw [List.append_nil, List.append_nil] at moved
      refine ⟨_, (front ++ kept) :: others, entries, ?_, ?_⟩
      · rw [survivors_cons_of_unnamed (key ▸ named)]
        exact .cons moved keeps
      · rw [join_append_cons, trim_blank_append blank]

private theorem Core.append_right {behind : List Glyph} (all : Shown (content ++ behind))
    (blank : ∀ glyph ∈ behind, glyph.isBlank = true) (here : Core names content core) :
    Core names (content ++ behind) core := by
  obtain ⟨pieces, rewritten, ⟨nonempty, joined, solid⟩, keeps, rfl⟩ := here
  obtain ⟨pieces, piece, rfl⟩ := (List.eq_nil_or_concat pieces).resolve_left nonempty
  rw [List.concat_eq_append] at joined solid keeps
  obtain ⟨others, last⟩ := List.forall_mem_append.mp solid
  have nothing : ∀ glyph ∈ ([] : List Glyph), glyph.isBlank = true := by simp
  have behindSolid :=
    (solid_mask_padded nothing blank piece).mpr (last piece (List.mem_singleton_self _))
  have key := keyOf_mask_padded nothing blank piece
  rw [List.nil_append] at behindSolid key
  have entries : Entries (content ++ behind) (pieces ++ [piece ++ behind]) :=
    ⟨by simp, by rw [join_concat_append, ← joined],
      List.forall_mem_append.mpr ⟨others, List.forall_mem_singleton.mpr behindSolid⟩⟩
  rw [survivors_append] at keeps
  cases named : names.contains (keyOf (mask piece)) with
  | true =>
    refine ⟨_, rewritten, entries, ?_, rfl⟩
    rw [survivors_cons_of_named named] at keeps
    rwa [survivors_append, survivors_cons_of_named (key ▸ named)]
  | false =>
    rw [survivors_cons_of_unnamed named] at keeps
    obtain ⟨front, kept, rfl, keeps, here⟩ := exists_concat_of_forall₂ keeps
    have shown : Shown ([] ++ piece ++ behind) := entries.shown all (by simp)
    have moved := here.padded identifiers shown nothing blank
    rw [List.nil_append, List.nil_append] at moved
    refine ⟨_, front ++ [kept ++ behind], entries, ?_, ?_⟩
    · rw [survivors_append, survivors_cons_of_unnamed (key ▸ named)]
      exact List.rel_append keeps (.cons moved .nil)
    · rw [join_concat_append, trim_append_blank blank]

/-- Blanks around a content do not matter to what is between the blanks of what is kept of it. -/
theorem Core.padded {front behind : List Glyph} (all : Shown (front ++ content ++ behind))
    (blank : ∀ glyph ∈ front, glyph.isBlank = true)
    (blankBehind : ∀ glyph ∈ behind, glyph.isBlank = true) (here : Core names content core) :
    Core names (front ++ content ++ behind) core :=
  (here.append_left identifiers (shown_append.mp all).1 blank).append_right identifiers all
    blankBehind

/-- What is between the blanks of a content is what is between those of the content without them. -/
theorem Core.trimmed (all : Shown content) (here : Core names content core) :
    Core names (trim content) core := by
  obtain ⟨front, behind, split, blank, blankBehind⟩ := exists_trim content
  have balanced : Balanced (mask (trim content)) := by
    obtain ⟨pieces, -, entries, -⟩ := here
    have whole : Balanced (mask content) := by
      rw [entries.joined, mask_join]
      exact balanced_join (by decide) (by simpa using entries.solid)
    rw [split, ← encode_characters, characters_append, characters_append,
      balanced_padded (blank_characters blank) (blank_characters blankBehind),
      encode_characters] at whole
    exact whole
  obtain ⟨other, there⟩ := exists_core identifiers balanced
  have paddedAll := all
  rw [split] at paddedAll
  have padded := there.padded identifiers paddedAll blank blankBehind
  rw [← split] at padded
  exact here.unique padded all ▸ there

theorem core_nil : Core names [] [] := by
  have nothing : ∀ glyph ∈ ([] : List Glyph), glyph.isBlank = true := by simp
  have unnamed : names.contains (keyOf (Glyph.mask [])) = false :=
    contains_of_blank identifiers blank_nil
  have solid : ∀ piece ∈ [([] : List Glyph)], Solid Byte.comma (Glyph.mask piece) :=
    List.forall_mem_singleton.mpr ⟨balanced_nil, rfl⟩
  have keeps : List.Forall₂ (Keeps names) (survivors names [[]]) [[]] := by
    rw [survivors_cons_of_unnamed unnamed]
    exact .cons (.of_blank identifiers nothing) .nil
  exact ⟨[[]], [[]], ⟨List.cons_ne_nil _ _, rfl, solid⟩, keeps, rfl⟩

end Pieces

section Contents

variable {part next : Part Glyph} (inside : Kept names (Keeps names) part next)
  (identifiers : names.Identifiers) (all : Shown part.content)
include inside identifiers all

/-- A content that is all blank is kept. -/
theorem Kept.content_of_blank (light : weight part.content = 0) : next.content = part.content := by
  obtain ⟨-, pieces, rewritten, entries, keeps, content⟩ := inside
  have blank := weight_eq_zero.mp light
  have nothing : ∀ glyph ∈ ([] : List Glyph), glyph.isBlank = true := by simp
  have solid := (solid_mask_padded blank nothing []).mpr ⟨balanced_nil, rfl⟩
  rw [List.append_nil, List.append_nil] at solid
  have whole : Entries part.content [part.content] :=
    ⟨List.cons_ne_nil _ _, rfl, List.forall_mem_singleton.mpr solid⟩
  obtain rfl := entries.unique whole all
  have unnamed : names.contains (keyOf (mask part.content)) = false := by
    rw [← encode_characters]
    exact contains_of_blank identifiers (blank_characters blank)
  have complete : survivors names [part.content] = [part.content] :=
    survivors_cons_of_unnamed unnamed []
  have same : List.Forall₂ (Keeps names) [part.content] [part.content] :=
    .cons (.of_blank identifiers blank) .nil
  rw [complete] at keeps
  obtain rfl := keeps_all_unique keeps same (List.forall_mem_singleton.mpr all)
  rw [content, keep, decide_eq_true complete, if_pos rfl]
  rfl

/-- Of a content that is not all blank the blanks at its edges are kept, whether an entry is
dropped or not. -/
theorem Kept.exists_core (dark : weight part.content ≠ 0) : ∃ core,
    Core names part.content core ∧ next.content =
      part.content.takeWhile isBlank ++ core ++ part.content.rtakeWhile isBlank := by
  obtain ⟨-, pieces, rewritten, entries, keeps, content⟩ := inside
  refine ⟨_, ⟨pieces, rewritten, entries, keeps, rfl⟩, ?_⟩
  by_cases complete : survivors names pieces = pieces
  · rw [complete] at keeps
    rw [content, keep, decide_eq_true complete, if_pos rfl]
    obtain ⟨lead, trail, light⟩ := join_edges_eq identifiers keeps (fun piece => entries.shown all)
      entries.nonempty
    rw [← entries.joined] at lead trail light
    rw [← lead, ← trail]
    exact eq_trim (mt light dark)
  · rw [content, keep, decide_eq_false complete, if_neg Bool.false_ne_true]

end Contents

end BareComponent.ReturnFilter
