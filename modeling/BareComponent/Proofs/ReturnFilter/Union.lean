import BareComponent.Proofs.ReturnFilter.Shown
import BareComponent.Proofs.Table

/-! # Filtering by two sets in turn

The second run cuts a content whose entries are the survivors of the first one, with the same keys,
and it finds them between the same blanks. In a script without strings, templates, comments and
slashes it sees what the first run left as it is, so that two runs are one run by the union.
-/

namespace BareComponent

namespace NameSet

def union (first second : NameSet) : NameSet := Table.merge first second

variable {first second : NameSet}

/-- A union contains what one of the sets contains. -/
theorem contains_union (first second : NameSet) (name : Text) :
    (union first second).contains name = (first.contains name || second.contains name) := by
  rw [contains, Table.hasKey, union, Table.get?_merge, Option.isSome_or, Bool.or_comm]
  rfl

/-- The order of a union does not matter. -/
theorem union_comm (first second : NameSet) : union first second = union second first := by
  refine Table.ext_get? fun name => ?_
  rw [union, union, Table.get?_merge, Table.get?_merge]
  cases first.get? name <;> cases second.get? name <;> rfl

theorem Identifiers.union (identifiers : first.Identifiers)
    (otherIdentifiers : second.Identifiers) : (union first second).Identifiers := by
  intro name named
  rw [contains_union, Bool.or_eq_true] at named
  rcases named with here | there
  · exact identifiers name here
  · exact otherIdentifiers name there

end NameSet

namespace ReturnFilter

open Text Glyph

theorem Alike.symm {first second : List Char} (alike : Alike first second) :
    Alike second first := by
  induction alike with
  | nil => exact .nil
  | same c _ ih => exact .same c ih
  | content balanced otherBalanced _ ih => exact .content otherBalanced balanced ih

/-- What is kept of an entry is dropped by the names that the entry is dropped by. -/
theorem Settles.contains_eq {names others : NameSet} (identifiers : others.Identifiers)
    {piece kept : List Glyph} (settles : Settles names piece kept)
    (balanced : Balanced (Glyph.mask piece)) :
    others.contains (keyOf (Glyph.mask kept)) = others.contains (keyOf (Glyph.mask piece)) := by
  rw [← encode_characters] at balanced
  have keptBalanced := settles.alike.balanced_iff.mp balanced
  have there := settles.alike.contains identifiers balanced
  have back := settles.alike.symm.contains identifiers keptBalanced
  rw [encode_characters, encode_characters] at there back
  rw [Bool.eq_iff_iff, ← not_iff_not, Bool.not_eq_true, Bool.not_eq_true]
  exact ⟨back, there⟩

variable {first second : NameSet}

/-- Survivors of the union are survivors of both. -/
theorem survivors_union (pieces : List (List Glyph)) :
    survivors (NameSet.union first second) pieces = survivors second (survivors first pieces) := by
  rw [survivors, survivors, survivors, List.filter_filter]
  refine List.filter_congr fun piece _ => ?_
  rw [NameSet.contains_union, Bool.not_or, Bool.and_comm]

/-- Whether two runs come to what one run by the union comes to. -/
def Agree (first second : NameSet) (glyphs : List Glyph) : Prop :=
  ∀ kept other union, Keeps first glyphs kept → Keeps second kept other →
    Keeps (NameSet.union first second) glyphs union → union = other

section Runs

variable (identifiers : first.Identifiers) (otherIdentifiers : second.Identifiers)
include identifiers otherIdentifiers

section Pieces

variable {content : List Glyph} {pieces rewritten unions : List (List Glyph)}

private theorem keeps_second (keeps : List.Forall₂ (Keeps first) pieces rewritten)
    (unionKeeps :
      List.Forall₂ (Keeps (NameSet.union first second)) (survivors second pieces) unions)
    (balanced : ∀ piece ∈ pieces, Balanced (Glyph.mask piece))
    (agree : ∀ piece ∈ pieces, Agree first second piece) :
    List.Forall₂ (Keeps second) (survivors second rewritten) unions := by
  induction keeps generalizing unions with
  | nil =>
    cases unionKeeps
    exact .nil
  | @cons piece kept pieces rewritten here keeps ih =>
    obtain ⟨pieceBalanced, balanced⟩ := List.forall_mem_cons.mp balanced
    obtain ⟨pieceAgrees, agree⟩ := List.forall_mem_cons.mp agree
    have same := (here.settles identifiers).contains_eq otherIdentifiers pieceBalanced
    cases named : second.contains (keyOf (Glyph.mask piece)) with
    | true =>
      rw [survivors_cons_of_named named] at unionKeeps
      rw [survivors_cons_of_named (same.trans named)]
      exact ih unionKeeps balanced agree
    | false =>
      rw [survivors_cons_of_unnamed named] at unionKeeps
      rw [survivors_cons_of_unnamed (same.trans named)]
      cases unionKeeps with
      | @cons _ union _ unions there unionKeeps =>
        obtain ⟨other, otherKeeps⟩ := exists_keeps otherIdentifiers kept
        obtain rfl := pieceAgrees kept other union here otherKeeps there
        exact .cons otherKeeps (ih unionKeeps balanced agree)

private theorem core_second {core union : List Glyph} (all : Shown content)
    (agree : ∀ pieces, Entries content pieces → ∀ piece ∈ pieces, Agree first second piece)
    (here : Core first content core) (there : Core (NameSet.union first second) content union) :
    Core second core union := by
  obtain ⟨pieces, rewritten, entries, keeps, rfl⟩ := here
  obtain ⟨others, unions, otherEntries, unionKeeps, rfl⟩ := there
  obtain rfl := entries.unique otherEntries all
  rw [survivors_union] at unionKeeps
  have inside {piece : List Glyph} (member : piece ∈ survivors first pieces) : piece ∈ pieces :=
    List.mem_of_mem_filter member
  have secondKeeps := keeps_second identifiers otherIdentifiers keeps unionKeeps
    (fun piece member => (entries.solid piece (inside member)).1)
    fun piece member => agree pieces entries piece (inside member)
  cases keeps_rewritten : rewritten with
  | nil =>
    rw [keeps_rewritten] at secondKeeps
    cases secondKeeps
    exact core_nil otherIdentifiers
  | cons kept others =>
    rw [← keeps_rewritten]
    have nonempty : rewritten ≠ [] := by simp [keeps_rewritten]
    obtain ⟨keptEntries, shown⟩ := entries.join_rewritten identifiers keeps nonempty all
    have whole : Core second (join rewritten) (trim (join unions)) :=
      ⟨rewritten, unions, keptEntries, secondKeeps, rfl⟩
    exact whole.trimmed otherIdentifiers shown

private theorem part_agrees {part next last union : Part Glyph}
    (here : Kept first (Keeps first) part next) (there : Kept second (Keeps second) next last)
    (both : Kept (NameSet.union first second) (Keeps (NameSet.union first second)) part union)
    (all : Shown part.content) (nextAll : Shown next.content)
    (agree : ∀ pieces, Entries part.content pieces → ∀ piece ∈ pieces, Agree first second piece) :
    union = last := by
  have unionIdentifiers := identifiers.union otherIdentifiers
  have gaps : union.gap = last.gap := both.1.symm.trans (here.1.trans there.1)
  suffices contents : union.content = last.content by
    obtain ⟨gap, content⟩ := union
    obtain ⟨otherGap, otherContent⟩ := last
    exact congrArg₂ Part.mk gaps contents
  by_cases light : weight part.content = 0
  · have kept := here.content_of_blank identifiers all light
    rw [both.content_of_blank unionIdentifiers all light,
      there.content_of_blank otherIdentifiers nextAll (kept ▸ light), kept]
  obtain ⟨core, firstCore, nextContent⟩ := here.exists_core identifiers all light
  obtain ⟨other, unionCore, unionContent⟩ := both.exists_core unionIdentifiers all light
  have secondCore := core_second identifiers otherIdentifiers all agree firstCore unionCore
  have lead := isBlank_takeWhile part.content
  have trail := isBlank_rtakeWhile part.content
  by_cases nothing : core = []
  · subst nothing
    have noneShown : Shown [] := fun glyph member => absurd member List.not_mem_nil
    obtain rfl := secondCore.unique (core_nil otherIdentifiers) noneShown
    have blank : weight next.content = 0 := by
      rw [nextContent, weight_append, weight_append, weight_takeWhile, weight_rtakeWhile]
      rfl
    rw [there.content_of_blank otherIdentifiers nextAll blank, unionContent, nextContent]
  · obtain ⟨begins, ends⟩ := firstCore.ends
    have dark : weight next.content ≠ 0 := by
      have inner := weight_ne_zero nothing begins
      rw [nextContent, weight_append, weight_append]
      omega
    obtain ⟨lastCore, again, lastContent⟩ :=
      there.exists_core otherIdentifiers nextAll dark
    obtain ⟨leadEq, trailEq⟩ := edges_padded lead trail nothing begins ends
    have padded := secondCore.padded otherIdentifiers (nextContent ▸ nextAll) lead trail
    rw [← nextContent] at padded leadEq trailEq
    rw [unionContent, lastContent, leadEq, trailEq, padded.unique again nextAll]

end Pieces

/-- Two runs come to what one run by the union comes to. -/
theorem agree_of_shown {glyphs : List Glyph} (all : Shown glyphs) : Agree first second glyphs := by
  induction length : (text glyphs).length using Nat.strongRecOn generalizing glyphs with
  | ind count ih =>
    intro kept other union here there both
    obtain ⟨tail, parts, rfl, parted⟩ := exists_parts glyphs
    obtain ⟨nexts, rfl, keptParts, nextParted⟩ := here.exists_parts identifiers parted all
    have nextAll := here.shown all
    obtain ⟨lasts, rfl, lastParts, -⟩ :=
      there.exists_parts otherIdentifiers nextParted nextAll
    obtain ⟨unions, rfl, unionParts, -⟩ :=
      both.exists_parts (identifiers.union otherIdentifiers) parted all
    have agree : ∀ part ∈ parts, ∀ pieces, Entries part.content pieces → ∀ piece ∈ pieces,
        Agree first second piece := by
      intro part inside pieces entries piece member
      have shorter := parted.shorter inside
      have contentShown := all.of_sublist (content_sublist_weave tail inside)
      have noLonger := ((entries.sublist member).flatMap bytes).length_le
      have fewer : (text piece).length < count := by
        change (text piece).length ≤ (text part.content).length at noLonger
        omega
      exact ih _ fewer (entries.shown contentShown member) rfl
    have shown : ∀ part ∈ parts, Shown part.content := fun part inside =>
      all.of_sublist (content_sublist_weave tail inside)
    have nextShown : ∀ next ∈ nexts, Shown next.content := fun next inside =>
      nextAll.of_sublist (content_sublist_weave tail inside)
    suffices same : unions = lasts by rw [same]
    clear here there both all nextAll parted nextParted ih length
    induction keptParts generalizing lasts unions with
    | nil =>
      cases lastParts
      cases unionParts
      rfl
    | cons first_kept _ rest =>
      cases lastParts with
      | cons lastKept lastParts =>
        cases unionParts with
        | cons unionKept unionParts =>
          obtain ⟨partShown, shown⟩ := List.forall_mem_cons.mp shown
          obtain ⟨keptShown, nextShown⟩ := List.forall_mem_cons.mp nextShown
          obtain ⟨partAgree, agree⟩ := List.forall_mem_cons.mp agree
          rw [part_agrees identifiers otherIdentifiers first_kept lastKept unionKept partShown
            keptShown partAgree, rest _ lastParts _ unionParts agree shown nextShown]

private theorem apply_apply {script : Text} (string : IsString script)
    (unquoted : Unquoted script) :
    apply second (apply first script) = apply (NameSet.union first second) script := by
  obtain ⟨characters, rfl⟩ := string
  have all := shown_shownOf characters
  rw [← text_shownOf] at unquoted ⊢
  obtain ⟨kept, here⟩ := exists_keeps identifiers (shownOf characters)
  obtain ⟨other, there⟩ := exists_keeps otherIdentifiers kept
  obtain ⟨union, both⟩ := exists_keeps (identifiers.union otherIdentifiers) (shownOf characters)
  have keptUnquoted : Unquoted (text kept) := fun b member =>
    unquoted b ((here.thins.sublist.flatMap bytes).subset member)
  rw [here.apply_eq all unquoted, there.apply_eq (here.shown all) keptUnquoted,
    both.apply_eq all unquoted,
    agree_of_shown identifiers otherIdentifiers all kept other union here there both]

end Runs

/-- Filtering by two sets in turn, in either order, is filtering by their union. -/
theorem apply_union {first second : NameSet} (identifiers : first.Identifiers)
    (otherIdentifiers : second.Identifiers) (script : String)
    (unquoted : Unquoted (Text.ofString script)) :
    apply second (apply first (Text.ofString script)) =
        apply (NameSet.union first second) (Text.ofString script) ∧
      apply first (apply second (Text.ofString script)) =
        apply (NameSet.union first second) (Text.ofString script) := by
  have string := isString_ofString script
  refine ⟨apply_apply identifiers otherIdentifiers string unquoted, ?_⟩
  rw [NameSet.union_comm]
  exact apply_apply otherIdentifiers identifiers string unquoted

/-- One of the sets drops an entry of the outer object, the other one of either object. -/
theorem apply_union_nested :
    (NameSet.ofList [Text.ofString "a"]).Identifiers ∧
      (NameSet.ofList [Text.ofString "b"]).Identifiers ∧
      Unquoted
        (Text.ofString "return \x7b a , f: () => \x7b return \x7b b, c \x7d \x7d, b \x7d \x7d") ∧
      apply (NameSet.ofList [Text.ofString "b"]) (apply (NameSet.ofList [Text.ofString "a"])
          (Text.ofString "return \x7b a , f: () => \x7b return \x7b b, c \x7d \x7d, b \x7d \x7d")) =
        apply
          (NameSet.union (NameSet.ofList [Text.ofString "a"]) (NameSet.ofList [Text.ofString "b"]))
          (Text.ofString "return \x7b a , f: () => \x7b return \x7b b, c \x7d \x7d, b \x7d \x7d") ∧
      apply (NameSet.ofList [Text.ofString "b"]) (apply (NameSet.ofList [Text.ofString "a"])
          (Text.ofString "return \x7b a , f: () => \x7b return \x7b b, c \x7d \x7d, b \x7d \x7d")) =
        Text.ofString "return \x7b f: () => \x7b return \x7b c \x7d \x7d \x7d \x7d" := by
  have identifiers : (NameSet.ofList [Text.ofString "a"]).Identifiers := by decide +kernel
  have otherIdentifiers : (NameSet.ofList [Text.ofString "b"]).Identifiers := by decide +kernel
  have unquoted : Unquoted
      (Text.ofString "return \x7b a , f: () => \x7b return \x7b b, c \x7d \x7d, b \x7d \x7d") := by
    decide +kernel
  have computed := (apply_union identifiers otherIdentifiers _ unquoted).1
  refine ⟨identifiers, otherIdentifiers, unquoted, computed, computed.trans ?_⟩
  decide +kernel

end ReturnFilter

end BareComponent
