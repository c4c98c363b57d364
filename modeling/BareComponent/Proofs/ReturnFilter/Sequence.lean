import BareComponent.Proofs.Mask.Aligned
import BareComponent.Proofs.ReturnFilter.Survivors

/-! # One text behind another

The filter looks at one text after the other where no literal reaches from the first into the second
and no word runs over the seam. This is so behind a text in whose mask every head is closed, if no
head lies over the seam either.
-/

namespace BareComponent.ReturnFilter

open Text Pattern Cursor Glyph

variable {names : NameSet}

/-- Filtering leads to one result. -/
theorem Filtered.unique {marked kept other : Marked} (filtered : Filtered names marked kept)
    (again : Filtered names marked other) : kept = other := by
  induction filtered generalizing other with
  | @intro marked objects rising outermost rewritten _ ih =>
    cases again with
    | intro others othersRising othersOutermost othersRewritten othersEntries =>
      let Before (first second : Span) : Prop := first.start < second.start
      have irreflexive : Std.Irrefl Before := ⟨fun span => Nat.lt_irrefl span.start⟩
      have asymmetric : Std.Asymm Before := ⟨fun _ _ => Nat.lt_asymm⟩
      obtain rfl : objects = others :=
        List.Pairwise.eq_of_mem_iff (r := Before) rising othersRising fun object =>
          (outermost object).trans (othersOutermost object).symm
      refine congrArg marked.replace (List.map_congr_left fun object member => ?_)
      have entries : ∀ entry ∈ (marked.slice object).survivors names,
          rewritten object entry = othersRewritten object entry := fun entry survives =>
        ih object member entry survives (othersEntries object member entry survives)
      rw [Marked.keep, Marked.keep, List.map_congr_left entries]

/-- Any fuel beyond the length of a text does. -/
theorem filterText_fuel (glyphs : List Glyph) {fuel more : Nat}
    (enough : (Glyph.text glyphs).length < fuel) (enoughMore : (Glyph.text glyphs).length < more) :
    filterText names fuel (Glyph.text glyphs) (mask glyphs) =
      filterText names more (Glyph.text glyphs) (mask glyphs) := by
  obtain ⟨kept, filtered, computed⟩ := exists_filtered names fuel glyphs enough
  obtain ⟨other, again, computedAgain⟩ := exists_filtered names more glyphs enoughMore
  rw [← computed, ← computedAgain, filtered.unique again]

/-- The inside of a literal stands in the text. -/
theorem span_le_of_mem_objects {masked : Text} (string : IsString masked) {object : Span}
    (member : object ∈ objects masked) :
    object.start ≤ masked.length ∧ object.stop ≤ masked.length := by
  obtain ⟨characters, rfl⟩ := string
  obtain ⟨literals, laid, found⟩ := exists_laid characters
  rw [found, List.mem_map] at member
  obtain ⟨literal, inside, rfl⟩ := member
  obtain ⟨front, last, blanks, content, rfl, here, starts⟩ := laid.closed inside
  rw [here.spelled]
  simp [Literal.span, starts]
  omega

section Seam

variable {first second : List Char}

/-- Whether the brace of every head in a mask is closed in it. -/
def HeadsClosed (masked : Text) : Prop :=
  ∀ before blanks rest : List Char, masked = encode (before ++ (headOf blanks ++ rest)) →
    isWord before.getLast? = false → Blank blanks →
      ∃ content behind, ClosedAt before (headOf blanks ++ rest) blanks content behind

/-- Whether no head lies over the seam of two texts. -/
def NoHeadOver (first second : List Char) : Prop :=
  ∀ blanks last more : List Char, Blank blanks → headOf blanks = last ++ more → last <:+ first →
    more <+: second → last = [] ∨ more = []

/-- No head lies over a seam at which a head begins. -/
theorem noHeadOver_of_head (boundary : isWord first.getLast? = false)
    (begins : second.head? = some 'r') : NoHeadOver first second := by
  intro blanks last more blank split suffix behind
  by_contra both
  obtain ⟨someLast, someMore⟩ := not_or.mp both
  obtain ⟨c, more, rfl⟩ := List.exists_cons_of_ne_nil someMore
  obtain ⟨rest, rfl⟩ := behind
  obtain rfl : c = 'r' := Option.some.inj begins
  obtain ⟨front, rfl⟩ := suffix
  obtain ⟨d, last, rfl⟩ := List.exists_cons_of_ne_nil someLast
  have whole := headOf_append blanks []
  rw [List.append_nil, split] at whole
  obtain ⟨rfl, inside⟩ := List.cons.inj whole
  rcases headOf_quiet front blank inside.symm with other | word
  · exact other rfl
  · rw [boundary] at word
    contradiction

/-- No head lies over a seam behind a closing brace. -/
theorem noHeadOver_of_brace (ends : first.getLast? = some '}') : NoHeadOver first second := by
  intro blanks last more blank split suffix _
  by_contra both
  obtain ⟨front, rfl⟩ := suffix
  have someLast := (not_or.mp both).1
  rw [List.getLast?_append_of_ne_nil _ someLast] at ends
  have member : '}' ∈ headOf blanks := by
    rw [split]
    exact List.mem_append_left _ (List.mem_of_getLast? ends)
  have dark : ¬CharacterClass.blank '}'.toNat = true := by decide
  rw [headOf, List.mem_append, List.mem_append] at member
  rcases member with (letter | gap) | brace
  · exact absurd letter (by decide)
  · exact dark (blank '}' gap)
  · exact absurd brace (by decide)

/-- The heads of a mask are closed if the filter finds a bracket for each head that it finds. -/
theorem headsClosed_of_search {masked : Text} (string : IsString masked)
    (closed : ∀ found ∈ head.search masked,
      (masked.closingOf? (found.span.stop - 1)).isSome = true) : HeadsClosed masked := by
  obtain ⟨characters, rfl⟩ := string
  intro before blanks rest spelled boundary blank
  obtain rfl := encode_injective spelled
  rw [← List.nil_append before] at boundary
  have found := head_mem_searchBehind blank boundary rest
  exact exists_closedAt_of_closingOf? blank boundary (closed _ found)

/-- Behind a text whose heads are closed every literal that begins in it ends in it. -/
theorem HeadsClosed.sealed (closed : HeadsClosed (encode first)) (apart : NoHeadOver first second) :
    Sealed [] first second := by
  intro front last split nonempty blanks content behind here
  have spelled := here.spelled
  rw [List.nil_append] at here ⊢
  have inside : ∃ more, last = headOf blanks ++ more := by
    rcases List.append_eq_append_iff.mp spelled with ⟨more, headEq, secondEq⟩ | ⟨more, lastEq, -⟩
    · have empty :=
        apart blanks last more here.blank headEq ⟨front, split.symm⟩ ⟨_, secondEq.symm⟩
      obtain rfl := empty.resolve_left nonempty
      exact ⟨[], by rw [List.append_nil, headEq, List.append_nil]⟩
    · exact ⟨more, lastEq⟩
  obtain ⟨more, rfl⟩ := inside
  obtain ⟨inner, others, there⟩ :=
    closed front blanks more (congrArg encode split) here.boundary here.blank
  obtain ⟨-, rfl, -⟩ := here.unique (there.append second)
  exact ⟨others, there⟩

theorem Literal.span_move (literal : Literal) (before other : List Char)
    (starts : (encode before).length ≤ literal.start) :
    (literal.move before (other ++ before)).span = literal.span.shift (encode other).length := by
  simp only [Literal.move, Literal.span, Span.shift, encode_append, List.length_append,
    Span.mk.injEq]
  omega

/-- The literals of two texts one behind the other are those of each. -/
theorem objects_append (isSealed : Sealed [] first second)
    (boundary : isWord first.getLast? = false) : objects (encode (first ++ second)) =
      objects (encode first) ++
        (objects (encode second)).map (Span.shift · (encode first).length) := by
  obtain ⟨literals, laid, found⟩ := exists_laid first
  obtain ⟨others, otherLaid, otherFound⟩ := exists_laid second
  have edge : isWord ([] : List Char).getLast? = isWord first.getLast? := boundary.symm
  have moved := otherLaid.change_front edge
  have whole := laid.append isSealed moved
  have spans : (others.map (Literal.move [] first)).map Literal.span =
      (others.map Literal.span).map (Span.shift · (encode first).length) := by
    rw [List.map_map, List.map_map]
    refine List.map_congr_left fun literal _ => ?_
    have here := literal.span_move [] first (Nat.zero_le _)
    rwa [List.append_nil] at here
  rw [whole.objects, found, otherFound, List.map_append, spans]

end Seam

section Parts

variable {text masked tail behind : Text}

/-- Where the literals of two masks one behind the other are those of each, the filter goes through
one text after the other. -/
theorem filterText_append (string : IsString masked) (same : text.length = masked.length)
    (split : objects (masked ++ behind) =
      objects masked ++ (objects behind).map (Span.shift · masked.length)) (fuel : Nat) :
    filterText names fuel (text ++ tail) (masked ++ behind) =
      filterText names fuel text masked ++ filterText names fuel tail behind := by
  cases fuel with
  | zero => rw [filterText, filterText, filterText]
  | succ fuel =>
    have inside (object : Span) (member : object ∈ objects masked) :=
      span_le_of_mem_objects string member
    have first : ∀ object ∈ objects masked,
        (object, filterObject names fuel ((text ++ tail).slice object)
          ((masked ++ behind).slice object)) =
        (object, filterObject names fuel (text.slice object) (masked.slice object)) := by
      intro object member
      rw [slice_append_of_le (same ▸ (inside object member).2),
        slice_append_of_le (inside object member).2]
    have second : ∀ object ∈ objects behind,
        (object.shift masked.length, filterObject names fuel
          ((text ++ tail).slice (object.shift masked.length))
          ((masked ++ behind).slice (object.shift masked.length))) =
        (object.shift text.length,
          filterObject names fuel (tail.slice object) (behind.slice object)) := by
      intro object _
      rw [← same, slice_shift, same, slice_shift]
    have edits : ∀ edit ∈ (objects masked).map fun object =>
        (object, filterObject names fuel (text.slice object) (masked.slice object)),
        edit.1.start ≤ text.length ∧ edit.1.stop ≤ text.length := by
      intro edit member
      obtain ⟨object, found, rfl⟩ := List.mem_map.mp member
      rw [same]
      exact inside object found
    have together := replace_append tail edits ((objects behind).map fun object =>
      (object, filterObject names fuel (tail.slice object) (behind.slice object)))
    rw [shiftEdits, List.map_map] at together
    rw [filterText, filterText, filterText, split, List.map_append, List.map_map,
      List.map_congr_left first, ← together]
    exact congrArg (replace _ <| _ ++ ·) (List.map_congr_left second)

/-- A run uses enough fuel, so that any more of it does as well. -/
theorem apply_eq_filterText {script : Text} (string : IsString script)
    (nonempty : names.isEmpty = false) {fuel : Nat} (enough : script.length < fuel) :
    apply names script = filterText names fuel script script.mask := by
  obtain ⟨characters, rfl⟩ := string
  obtain ⟨glyphs, spelled, masked⟩ := exists_glyphs characters
  rw [spelled] at enough
  rw [apply, nonempty, if_neg Bool.false_ne_true, masked, spelled]
  exact filterText_fuel glyphs (Nat.lt_succ_self _) enough

/-- Two scripts that are masked apart and whose literals are apart are filtered one after the
other. -/
theorem apply_append_of_objects {script : Text} (string : IsString script)
    (tailString : IsString tail) (apart : (script ++ tail).mask = script.mask ++ tail.mask)
    (split : objects (script.mask ++ tail.mask) =
      objects script.mask ++ (objects tail.mask).map (Span.shift · script.mask.length)) :
    apply names (script ++ tail) = apply names script ++ apply names tail := by
  cases nonempty : names.isEmpty with
  | true => simp only [apply, nonempty, if_true]
  | false =>
    have enough : (script ++ tail).length < (script ++ tail).length + 1 := Nat.lt_succ_self _
    have first : script.length < (script ++ tail).length + 1 := by
      rw [List.length_append]
      omega
    have second : tail.length < (script ++ tail).length + 1 := by
      rw [List.length_append]
      omega
    rw [apply_eq_filterText (string.append tailString) nonempty enough,
      apply_eq_filterText string nonempty first, apply_eq_filterText tailString nonempty second,
      apart, filterText_append string.aligned.maskIsString (mask_length script).symm split]

end Parts

end BareComponent.ReturnFilter
