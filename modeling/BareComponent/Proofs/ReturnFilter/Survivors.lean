import BareComponent.Proofs.ReturnFilter.Key
import BareComponent.Proofs.ReturnFilter.Thinned
import Mathlib.Algebra.Order.BigOperators.Group.List
import Mathlib.Algebra.Order.Group.Nat
import Mathlib.Data.List.Flatten

/-! # What survives a filter

What is kept of a script is a part of it in the same order, and filtering changes a script exactly
if it comes to an entry whose key is to be dropped. A dropped entry takes more than white space with
it, because its key is an identifier, so the characters that are no white space tell whether one
was.
-/

namespace BareComponent.Glyph

open Text ReturnFilter

def weight (glyphs : List Glyph) : Nat := glyphs.countP fun glyph => !glyph.isBlank

@[simp] theorem weight_append (first second : List Glyph) :
    weight (first ++ second) = weight first + weight second := List.countP_append

theorem weight_le {first second : List Glyph} (sublist : first.Sublist second) :
    weight first ≤ weight second := sublist.countP_le

theorem weight_eq_zero {glyphs : List Glyph} :
    weight glyphs = 0 ↔ ∀ glyph ∈ glyphs, glyph.isBlank = true := by
  simp [weight, List.countP_eq_zero]

theorem weight_takeWhile (glyphs : List Glyph) : weight (glyphs.takeWhile isBlank) = 0 :=
  weight_eq_zero.mpr (isBlank_takeWhile glyphs)

theorem weight_rtakeWhile (glyphs : List Glyph) : weight (glyphs.rtakeWhile isBlank) = 0 :=
  weight_eq_zero.mpr (isBlank_rtakeWhile glyphs)

theorem weight_dropWhile (glyphs : List Glyph) :
    weight (glyphs.dropWhile isBlank) = weight glyphs := by
  have split := congrArg weight
    (List.takeWhile_append_dropWhile (p := isBlank) (l := glyphs))
  rw [weight_append, weight_takeWhile] at split
  omega

theorem weight_rdropWhile (glyphs : List Glyph) :
    weight (glyphs.rdropWhile isBlank) = weight glyphs := by
  have backwards := weight_dropWhile glyphs.reverse
  simp only [weight] at backwards ⊢
  rw [List.rdropWhile, List.countP_reverse, backwards, List.countP_reverse]

/-- Trimming takes blanks only. -/
theorem weight_trim (glyphs : List Glyph) : weight (trim glyphs) = weight glyphs := by
  rw [trim, weight_rdropWhile, weight_dropWhile]

/-- Trimming keeps what is a part of something else a part of it. -/
theorem trim_sublist {first second : List Glyph} (sublist : first.Sublist second) :
    (trim first).Sublist (trim second) := by
  have front {first second : List Glyph} (sublist : first.Sublist second) :
      (first.dropWhile isBlank).Sublist (second.dropWhile isBlank) := by
    induction sublist with
    | slnil => exact List.Sublist.refl _
    | @cons first second glyph sublist ih =>
      rw [List.dropWhile_cons]
      split
      · exact ih
      · exact (List.dropWhile_sublist _).trans (sublist.cons glyph)
    | @cons_cons first second glyph sublist ih =>
      rw [List.dropWhile_cons, List.dropWhile_cons]
      split
      · exact ih
      · exact sublist.cons_cons glyph
  exact (front (front sublist).reverse).reverse

/-- Glyphs that are not all white space end in the white space behind the others. -/
theorem eq_trim {glyphs : List Glyph} (dark : weight glyphs ≠ 0) :
    glyphs = glyphs.takeWhile isBlank ++ trim glyphs ++ glyphs.rtakeWhile isBlank := by
  have same : glyphs.rtakeWhile isBlank = (glyphs.dropWhile isBlank).rtakeWhile isBlank := by
    conv_lhs => rw [← List.takeWhile_append_dropWhile (p := isBlank) (l := glyphs)]
    rw [List.rtakeWhile, List.reverse_append, List.takeWhile_append, if_neg, List.rtakeWhile]
    intro whole
    have blank := (List.takeWhile_prefix _).eq_of_length whole
    apply dark
    rw [← weight_dropWhile, weight_eq_zero]
    intro glyph member
    exact List.mem_takeWhile_imp (blank ▸ List.mem_reverse.mpr member)
  rw [same, takeWhile_append_trim]

/-- Fewer entries joined are a sublist. -/
theorem join_sublist {pieces others : List (List Glyph)} (sublist : pieces.Sublist others) :
    (join pieces).Sublist (join others) := by
  induction sublist with
  | slnil => exact List.Sublist.refl _
  | @cons pieces others piece sublist ih =>
    refine ih.trans ?_
    cases others with
    | nil => exact List.nil_sublist _
    | cons next others =>
      rw [join]
      exact (List.sublist_cons_self ..).trans (List.sublist_append_right ..)
  | @cons_cons pieces others piece sublist ih =>
    cases others with
    | nil =>
      obtain rfl := List.sublist_nil.mp sublist
      exact List.Sublist.refl _
    | cons next others =>
      cases pieces with
      | nil => exact List.sublist_append_left ..
      | cons first pieces => exact (ih.cons_cons comma).append_left piece

theorem join_sublist_join {pieces others : List (List Glyph)}
    (parts : List.Forall₂ (fun piece other => other.Sublist piece) pieces others) :
    (join others).Sublist (join pieces) := by
  induction parts with
  | nil => exact List.Sublist.refl _
  | cons here rest ih =>
    cases rest with
    | nil => exact here
    | cons => exact here.append (ih.cons_cons comma)

/-- What some entries weigh together, with the commas between them. -/
theorem weight_join (pieces : List (List Glyph)) :
    weight (join pieces) = (pieces.map weight).sum + (pieces.length - 1) := by
  induction pieces with
  | nil => rfl
  | cons piece pieces ih =>
    cases pieces with
    | nil => simp [join]
    | cons next pieces =>
      have dark : weight (comma :: join (next :: pieces)) = weight (join (next :: pieces)) + 1 :=
        List.countP_cons_of_pos (by decide)
      rw [join, weight_append, dark, ih]
      simp only [List.map_cons, List.sum_cons, List.length_cons]
      omega

end BareComponent.Glyph

namespace BareComponent.ReturnFilter

open Text Glyph

/-- What a run of the filter does to glyphs: it keeps a part of them, all of them if it comes to no
key in the set of names, and else fewer that are no white space. -/
structure Thins (names : NameSet) (glyphs kept : List Glyph) : Prop where
  sublist : kept.Sublist glyphs
  same : Settled names (Glyph.mask glyphs) → kept = glyphs
  settled : weight glyphs ≤ weight kept → Settled names (Glyph.mask glyphs)

variable {names : NameSet} {pieces rewritten : List (List Glyph)}

/-- An entry whose key is an identifier is not all white space. -/
theorem weight_named (identifiers : names.Identifiers) {piece : List Glyph}
    (named : names.contains (keyOf (Glyph.mask piece)) = true) : 0 < weight piece := by
  by_contra light
  have blank := weight_eq_zero.mp (Nat.eq_zero_of_not_pos light)
  rw [← encode_characters, contains_of_blank identifiers (blank_characters blank)] at named
  contradiction

/-- All entries survive exactly if none is named. -/
theorem survivors_eq_self : survivors names pieces = pieces ↔
    ∀ piece ∈ pieces, names.contains (keyOf (Glyph.mask piece)) = false := by
  simp [survivors, List.filter_eq_self]

private theorem sum_weight_le (thins : List.Forall₂ (Thins names) pieces rewritten) :
    (rewritten.map weight).sum ≤ (pieces.map weight).sum := by
  induction thins with
  | nil => exact Nat.le_refl _
  | cons here _ ih =>
    have lighter := weight_le here.sublist
    simp only [List.map_cons, List.sum_cons]
    omega

private theorem rewritten_eq (thins : List.Forall₂ (Thins names) pieces rewritten)
    (settled : ∀ piece ∈ pieces, Settled names (Glyph.mask piece)) : rewritten = pieces := by
  induction thins with
  | nil => rfl
  | cons here _ ih =>
    obtain ⟨first, others⟩ := List.forall_mem_cons.mp settled
    rw [here.same first, ih others]

private theorem pieces_settled (thins : List.Forall₂ (Thins names) pieces rewritten)
    (heavy : (pieces.map weight).sum ≤ (rewritten.map weight).sum) :
    ∀ piece ∈ pieces, Settled names (Glyph.mask piece) := by
  induction thins with
  | nil => simp
  | cons here thins ih =>
    have lighter := weight_le here.sublist
    have others := sum_weight_le thins
    simp only [List.map_cons, List.sum_cons] at heavy
    exact List.forall_mem_cons.mpr ⟨here.settled (by omega), ih (by omega)⟩

private theorem sum_survivors_lt {piece : List Glyph} (member : piece ∈ pieces)
    (named : names.contains (keyOf (Glyph.mask piece)) = true) (heavy : 0 < weight piece) :
    ((survivors names pieces).map weight).sum < (pieces.map weight).sum := by
  induction pieces with
  | nil => simp at member
  | cons first pieces ih =>
    have others : ((survivors names pieces).map weight).sum ≤ (pieces.map weight).sum :=
      (List.filter_sublist.map weight).sum_le_sum fun _ _ => Nat.zero_le _
    rcases List.mem_cons.mp member with rfl | later
    · rw [survivors_cons_of_named named, List.map_cons, List.sum_cons]
      omega
    · have fewer := ih later
      cases dropped : names.contains (keyOf (Glyph.mask first)) with
      | true =>
        rw [survivors_cons_of_named dropped, List.map_cons, List.sum_cons]
        omega
      | false =>
        rw [survivors_cons_of_unnamed dropped, List.map_cons, List.sum_cons, List.map_cons,
          List.sum_cons]
        omega

/-- Dropping an entry makes a content lighter. -/
theorem weight_survivors_lt (identifiers : names.Identifiers) {piece : List Glyph}
    (member : piece ∈ pieces) (named : names.contains (keyOf (Glyph.mask piece)) = true) :
    weight (join (survivors names pieces)) < weight (join pieces) := by
  have fewer : (survivors names pieces).length ≤ pieces.length := List.length_filter_le ..
  have lighter := sum_survivors_lt member named (weight_named identifiers named)
  rw [weight_join, weight_join]
  omega

/-- What a run of the filter does to the content of a literal. -/
private structure ThinsInside (names : NameSet) (content kept : List Glyph) : Prop where
  sublist : kept.Sublist content
  same : SettledInside names (Glyph.mask content) → kept = content
  settled : weight content ≤ weight kept → SettledInside names (Glyph.mask content)

section Content

variable {content : List Glyph} (entries : Entries content pieces)
  (thins : List.Forall₂ (Thins names) (survivors names pieces) rewritten)
include entries thins

private theorem join_rewritten_sublist :
    (join rewritten).Sublist (join (survivors names pieces)) ∧
      (join rewritten).Sublist content := by
  have inside := join_sublist_join (thins.imp fun _ _ thins => thins.sublist)
  refine ⟨inside, ?_⟩
  rw [entries.joined]
  exact inside.trans (join_sublist List.filter_sublist)

private theorem thinsInside_of_complete (complete : survivors names pieces = pieces) :
    ThinsInside names content (join rewritten) := by
  rw [complete] at thins
  have unnamed := survivors_eq_self.mp complete
  refine ⟨(join_rewritten_sublist entries (complete.symm ▸ thins)).2, fun settled => ?_,
    fun heavy => ?_⟩
  · rw [entries.settledInside_iff] at settled
    rw [rewritten_eq thins fun piece member => (settled piece member).2, entries.joined]
  · rw [entries.settledInside_iff]
    rw [entries.joined, weight_join, weight_join, thins.length_eq] at heavy
    have settled := pieces_settled thins (by omega)
    exact fun piece member => ⟨unnamed piece member, settled piece member⟩

private theorem thinsInside_of_dropped (identifiers : names.Identifiers) {piece : List Glyph}
    (member : piece ∈ pieces) (named : names.contains (keyOf (Glyph.mask piece)) = true) :
    ThinsInside names content
      (content.takeWhile isBlank ++ trim (join rewritten) ++ content.rtakeWhile isBlank) := by
  obtain ⟨fewer, inside⟩ := join_rewritten_sublist entries thins
  have light : weight (join rewritten) < weight content := by
    have lighter := weight_le fewer
    have dropped := weight_survivors_lt identifiers member named
    rw [← entries.joined] at dropped
    omega
  refine ⟨?_, fun settled => ?_, fun heavy => ?_⟩
  · have dark : weight content ≠ 0 := by omega
    conv_rhs => rw [eq_trim dark]
    exact ((List.Sublist.refl _).append (trim_sublist inside)).append (List.Sublist.refl _)
  · rw [entries.settledInside_iff] at settled
    rw [(settled piece member).1] at named
    contradiction
  · rw [weight_append, weight_append, weight_takeWhile, weight_rtakeWhile, weight_trim] at heavy
    omega

private theorem thinsInside_keep (identifiers : names.Identifiers) : ThinsInside names content
    (keep content (join rewritten) (survivors names pieces = pieces)) := by
  by_cases complete : survivors names pieces = pieces
  · rw [keep, decide_eq_true complete, if_pos rfl]
    exact thinsInside_of_complete entries thins complete
  · obtain ⟨piece, member, named⟩ : ∃ piece ∈ pieces,
        names.contains (keyOf (Glyph.mask piece)) = true := by
      simpa [survivors_eq_self] using complete
    rw [keep, decide_eq_false complete, if_neg Bool.false_ne_true]
    exact thinsInside_of_dropped entries thins identifiers member named

end Content

/-- What a run does to the contents it does to the text. -/
theorem thins_weave (identifiers : names.Identifiers) {tail : List Glyph}
    {parts others : List (Part Glyph)} (parted : Parted tail parts)
    (kept : List.Forall₂ (Kept names (Thins names)) parts others) :
    Thins names (weave tail parts) (weave tail others) := by
  have inside : List.Forall₂
      (fun part other => part.gap = other.gap ∧ ThinsInside names part.content other.content)
      parts others := kept.imp fun part other ⟨gap, pieces, rewritten, entries, thins, content⟩ =>
    ⟨gap, content ▸ thinsInside_keep entries thins identifiers⟩
  have whole : (weave tail others).Sublist (weave tail parts) ∧
      ((∀ part ∈ parts, SettledInside names (Glyph.mask part.content)) →
        weave tail others = weave tail parts) ∧
      (weight (weave tail parts) ≤ weight (weave tail others) →
        ∀ part ∈ parts, SettledInside names (Glyph.mask part.content)) := by
    clear kept parted
    induction inside with
    | nil => simp
    | @cons part other parts others here inside ih =>
      obtain ⟨gap, here⟩ := here
      obtain ⟨sublist, same, settled⟩ := ih
      have lighter := weight_le here.sublist
      have othersLighter := weight_le sublist
      refine ⟨?_, ?_, ?_⟩
      · rw [weave, weave, ← gap]
        exact ((List.Sublist.refl _).append here.sublist).append sublist
      · intro all
        obtain ⟨first, rest⟩ := List.forall_mem_cons.mp all
        rw [weave, weave, ← gap, here.same first, same rest]
      · intro heavy
        rw [weave, weave, ← gap] at heavy
        simp only [weight_append] at heavy
        exact List.forall_mem_cons.mpr ⟨here.settled (by omega), settled (by omega)⟩
  obtain ⟨sublist, same, settled⟩ := whole
  exact ⟨sublist, fun all => same ((settled_weave parted).mp all),
    fun heavy => (settled_weave parted).mpr (settled heavy)⟩

/-- What is related to glyphs is what is kept of them. -/
theorem Filtered.exists_thins (identifiers : names.Identifiers) {glyphs : List Glyph}
    {kept : Marked} (filtered : Filtered names (marked glyphs) kept) :
    ∃ others, kept = marked others ∧ Thins names glyphs others :=
  filtered.thinned fun parted kept => thins_weave identifiers parted kept

theorem contains_of_isEmpty (empty : names.isEmpty = true) (key : Text) :
    names.contains key = false := by
  have nothing : names.entries = [] := List.isEmpty_iff.mp empty
  simp [NameSet.contains, Table.hasKey, Table.get?, nothing]

/-- A run of the filter is what the relation says, also when there is no name in the set. -/
theorem exists_run (names : NameSet) (script : List Char) : ∃ glyphs kept,
    Marked.ofScript (encode script) = marked glyphs ∧ Filtered names (marked glyphs) kept ∧
      kept.text = apply names (encode script) := by
  obtain ⟨glyphs, spelled, masked⟩ := Text.exists_glyphs script
  have whole : Marked.ofScript (encode script) = marked glyphs := by
    rw [Marked.ofScript, masked, spelled, marked]
  obtain ⟨kept, filtered, computed⟩ := exists_filtered names (text glyphs).length.succ glyphs
    (Nat.lt_succ_self _)
  refine ⟨glyphs, kept, whole, filtered, ?_⟩
  rw [apply]
  split
  · next empty =>
    have nothing := contains_of_isEmpty empty
    have identifiers : names.Identifiers := fun name named => by
      rw [nothing name] at named
      contradiction
    obtain ⟨others, rfl, thins⟩ := filtered.exists_thins identifiers
    rw [thins.same fun key _ => nothing key, spelled]
    rfl
  · rw [computed, masked, spelled]

/-- A run changes nothing exactly if it comes to no name. -/
theorem apply_eq_self_iff (identifiers : names.Identifiers) (script : List Char) :
    apply names (encode script) = encode script ↔ Settled names (encode script).mask := by
  obtain ⟨glyphs, kept, whole, filtered, computed⟩ := exists_run names script
  obtain ⟨others, rfl, thins⟩ := filtered.exists_thins identifiers
  have spelled : encode script = text glyphs := congrArg Marked.text whole
  have masked : (encode script).mask = Glyph.mask glyphs := congrArg Marked.mask whole
  rw [← computed, masked, spelled]
  constructor
  · intro same
    change text others = text glyphs at same
    apply thins.settled
    rw [text_eq_encode, text_eq_encode] at same
    have counts := congrArg List.length (encode_injective same)
    rw [List.length_map, List.length_map] at counts
    rw [thins.sublist.eq_of_length counts]
  · intro settled
    exact congrArg text (thins.same settled)

/-- A script is rewritten to its survivors: of every return object, the entries whose keys are not
named, each rewritten in turn. What is left is a sublist of the script, and the whole script exactly
if no key that filtering comes to is named. -/
theorem apply_keeps_survivors {names : NameSet} (identifiers : names.Identifiers)
    (script : String) : ∃ kept,
      Filtered names (Marked.ofScript (Text.ofString script)) kept ∧
      kept.text = apply names (Text.ofString script) ∧
      (apply names (Text.ofString script)).Sublist (Text.ofString script) ∧
      (apply names (Text.ofString script) = Text.ofString script ↔
        Settled names (Text.ofString script).mask) := by
  rw [ofString_eq]
  obtain ⟨glyphs, kept, whole, filtered, computed⟩ := exists_run names script.toList
  have sublist : (apply names (encode script.toList)).Sublist (encode script.toList) := by
    obtain ⟨others, rfl, thins⟩ := filtered.exists_thins identifiers
    have spelled : encode script.toList = text glyphs := congrArg Marked.text whole
    rw [← computed, spelled]
    exact thins.sublist.flatMap bytes
  exact ⟨kept, whole ▸ filtered, computed, sublist, apply_eq_self_iff identifiers script.toList⟩

/-- The value of the entry that is dropped is a string that holds a brace. -/
theorem apply_keeps_survivors_hidden :
    (NameSet.ofList [Text.ofString "hidden"]).Identifiers ∧
      apply (NameSet.ofList [Text.ofString "hidden"])
          (Text.ofString "return \x7b a, hidden: '\x7d', b: 1 \x7d") =
        Text.ofString "return \x7b a, b: 1 \x7d" ∧
      ∃ kept, Filtered (NameSet.ofList [Text.ofString "hidden"])
          (Marked.ofScript (Text.ofString "return \x7b a, hidden: '\x7d', b: 1 \x7d")) kept ∧
        kept.text = Text.ofString "return \x7b a, b: 1 \x7d" := by
  have identifiers : (NameSet.ofList [Text.ofString "hidden"]).Identifiers := by decide +kernel
  have computed : apply (NameSet.ofList [Text.ofString "hidden"])
      (Text.ofString "return \x7b a, hidden: '\x7d', b: 1 \x7d") =
        Text.ofString "return \x7b a, b: 1 \x7d" := by
    decide +kernel
  obtain ⟨kept, filtered, same, -⟩ := apply_keeps_survivors identifiers
    "return \x7b a, hidden: '\x7d', b: 1 \x7d"
  exact ⟨identifiers, computed, kept, filtered, same.trans computed⟩

end BareComponent.ReturnFilter
