import BareComponent.Proofs.ReturnFilter.Exchange
import BareComponent.Proofs.ReturnFilter.Padding

/-! # Keys of entries

The key of an entry is what stands in front of its first top-level colon, without blanks. Exchanging
a content changes it only if there is a brace in it, which no identifier has.
-/

namespace BareComponent.ReturnFilter

open Text

/-- What is no blank is never trimmed. -/
theorem mem_trim {characters : List Char} {c : Char} {b : UInt8} (member : c ∈ characters)
    (spelled : String.utf8EncodeChar c = [b]) (dark : CharacterClass.blank c.toNat = false) :
    b ∈ trim (encode characters) := by
  have kept {list : List Char} (member : c ∈ list) :
      c ∈ list.dropWhile (CharacterClass.blank ·.toNat) := by
    rw [← List.takeWhile_append_dropWhile (p := (CharacterClass.blank ·.toNat)) (l := list),
      List.mem_append] at member
    refine member.resolve_left fun first => ?_
    rw [List.mem_takeWhile_imp first] at dark
    contradiction
  rw [Text.trim, trimStart_encode, trimEnd_encode]
  refine List.mem_flatMap.mpr ⟨c, ?_, by simp [spelled]⟩
  exact List.mem_reverse.mpr (kept (List.mem_reverse.mpr (kept member)))

section Alike

variable {first second : List Char}

/-- Whether two texts are cut alike at their first separator, if they have one. -/
private def CutAlike (s : Char) (separator : UInt8) (depth : Nat) (first second : List Char) :
    Prop :=
  (topLevelOffset? separator depth (encode first) = none ∧
      topLevelOffset? separator depth (encode second) = none) ∨
    ∃ front rest other others, first = front ++ s :: rest ∧ second = other ++ s :: others ∧
      Alike front other ∧
      topLevelOffset? separator depth (encode first) = some (encode front).length ∧
      topLevelOffset? separator depth (encode second) = some (encode other).length

private theorem CutAlike.append {s : Char} {separator : UInt8} {depth reached : Nat}
    {piece other : List Char} (alike : Alike piece other)
    (reads : nesting? depth (encode piece) = some reached)
    (absent : topLevelOffset? separator depth (encode piece) = none)
    (otherAbsent : topLevelOffset? separator depth (encode other) = none)
    (cut : CutAlike s separator reached first second) :
    CutAlike s separator depth (piece ++ first) (other ++ second) := by
  have otherReads := (alike.nesting? depth).symm.trans reads
  have here := topLevelOffset?_append reads absent (encode first)
  have there := topLevelOffset?_append otherReads otherAbsent (encode second)
  rw [← encode_append] at here there
  rcases cut with ⟨nothing, otherNothing⟩ |
      ⟨front, rest, others, last, rfl, rfl, fronts, found, otherFound⟩
  · rw [nothing, Option.map_none] at here
    rw [otherNothing, Option.map_none] at there
    exact .inl ⟨here, there⟩
  · rw [found, Option.map_some] at here
    rw [otherFound, Option.map_some] at there
    refine .inr ⟨piece ++ front, rest, other ++ others, last, by simp, by simp, alike.append fronts,
      here.trans ?_, there.trans ?_⟩
    all_goals simp [Nat.add_comm]

private theorem Alike.cutAlike {s : Char} {separator : UInt8} (alike : Alike first second)
    (spelled : String.utf8EncodeChar s = [separator]) (ascii : separator.toNat < 0x80)
    {depth reached : Nat} (reads : Text.nesting? depth (encode first) = some reached) :
    CutAlike s separator depth first second := by
  induction alike generalizing depth with
  | nil => exact .inl ⟨rfl, rfl⟩
  | @same c first second alike ih =>
    rw [encode_cons, nesting?_append] at reads
    obtain ⟨next, step, others⟩ := Option.bind_eq_some_iff.mp reads
    have single : encode [c] = String.utf8EncodeChar c := by simp
    cases found : topLevelOffset? separator depth (encode [c]) with
    | none => exact .append (.refl [c]) (single ▸ step) found found (ih others)
    | some offset =>
      obtain ⟨piece, rest, split, -⟩ := exists_separator found
      have member : separator ∈ String.utf8EncodeChar c := by
        rw [← single, split]
        simp
      have alone := (encodeChar_eq_singleton member ascii).1
      obtain rfl : c = s := encodeChar_injective (alone.trans spelled.symm)
      rw [single, alone] at found
      refine .inr ⟨[], first, [], second, rfl, rfl, .nil, ?_, ?_⟩
      all_goals
        rw [encode_cons, alone]
        exact topLevelOffset?_here found _
  | @content inner other first second balanced otherBalanced alike ih =>
    have opened (inner : List Char) (balanced : Balanced (encode inner)) :
        Text.nesting? depth (encode ('{' :: inner)) = some (depth + 1) ∧
          topLevelOffset? separator depth (encode ('{' :: inner)) = none := by
      have opens : Byte.isOpen Byte.openBrace = true := by decide
      have step : Text.nest? depth Byte.openBrace = some (depth + 1) := by
        simp +decide [nest?, depthStep]
      have bytes : encode ('{' :: inner) = Byte.openBrace :: encode inner := rfl
      have deeper := nesting?_add balanced (depth + 1)
      have inside := topLevelOffset?_inside separator balanced depth
      rw [Nat.zero_add] at deeper inside
      rw [bytes, nesting?_cons, step, Option.bind_some, deeper, topLevelOffset?,
        if_pos (.inl opens), depthStep, if_pos opens, inside]
      exact ⟨rfl, rfl⟩
    obtain ⟨innerReads, absent⟩ := opened inner balanced
    obtain ⟨-, otherAbsent⟩ := opened other otherBalanced
    rw [← List.cons_append, encode_append, nesting?_append, innerReads, Option.bind_some] at reads
    have contents := Alike.content balanced otherBalanced .nil
    rw [List.append_nil, List.append_nil] at contents
    exact .append contents innerReads absent otherAbsent (ih reads)

theorem Alike.solid (alike : Alike first second) (solid : Solid Byte.comma (encode first)) :
    Solid Byte.comma (encode second) := by
  obtain ⟨balanced, absent⟩ := solid
  refine ⟨alike.balanced_iff.mp balanced, ?_⟩
  have comma : String.utf8EncodeChar ',' = [Byte.comma] := rfl
  rcases alike.cutAlike comma (by decide) balanced with ⟨-, absent⟩ | found
  · exact absent
  · obtain ⟨_, _, _, _, -, -, -, found, -⟩ := found
    rw [absent] at found
    contradiction

theorem Alike.eq_or_brace (alike : Alike first second) : first = second ∨ '{' ∈ second := by
  induction alike with
  | nil => exact .inl rfl
  | same c _ ih =>
    rcases ih with rfl | brace
    · exact .inl rfl
    · exact .inr (List.mem_cons_of_mem c brace)
  | content => exact .inr List.mem_cons_self

/-- Exchanging a content leaves a key as it is, or there is a brace in it. -/
theorem Alike.keyOf (alike : Alike first second) (balanced : Balanced (encode first)) :
    keyOf (encode first) = ReturnFilter.keyOf (encode second) ∨
      Byte.openBrace ∈ ReturnFilter.keyOf (encode second) := by
  have trimmed {front other : List Char} (fronts : Alike front other) :
      trim (encode front) = trim (encode other) ∨ Byte.openBrace ∈ trim (encode other) := by
    rcases fronts.eq_or_brace with rfl | brace
    · exact .inl rfl
    · exact .inr (mem_trim brace rfl (by decide))
  have colon : String.utf8EncodeChar ':' = [Byte.colon] := rfl
  rcases alike.cutAlike colon (by decide) balanced with
      ⟨absent, otherAbsent⟩ |
      ⟨front, rest, other, others, rfl, rfl, fronts, found, otherFound⟩
  · rw [keyOf_of_none absent, keyOf_of_none otherAbsent]
    exact trimmed alike
  · rw [keyOf_of_some found, keyOf_of_some otherFound, encode_append, encode_append,
      List.take_left, List.take_left]
    exact trimmed fronts

end Alike

section Names

variable {names : NameSet} (identifiers : names.Identifiers)
include identifiers

theorem contains_nil : names.contains [] = false := by
  by_contra named
  exact (identifiers [] (Bool.not_eq_false _ ▸ named)).1 rfl

theorem contains_of_brace {key : Text} (brace : Byte.openBrace ∈ key) :
    names.contains key = false := by
  by_contra named
  have plain := (identifiers key (Bool.not_eq_false _ ▸ named)).2 _ brace
  exact absurd plain (by decide)

/-- A text of blanks is no entry that is dropped. -/
theorem contains_of_blank {characters : List Char} (blank : Blank characters) :
    names.contains (keyOf (encode characters)) = false := by
  have key := keyOf_padded blank_nil blank []
  rw [List.nil_append, List.nil_append] at key
  rw [key]
  exact contains_nil identifiers

/-- Exchanging a content drops no entry. -/
theorem Alike.contains {first second : List Char} (alike : Alike first second)
    (balanced : Balanced (encode first))
    (unnamed : names.contains (ReturnFilter.keyOf (encode first)) = false) :
    names.contains (ReturnFilter.keyOf (encode second)) = false := by
  rcases alike.keyOf balanced with same | brace
  · rw [← same, unnamed]
  · exact contains_of_brace identifiers brace

end Names

end BareComponent.ReturnFilter
