import BareComponent.Proofs.ReturnFilter.Filtered

/-! # Blanks around a text

Blanks around a text change neither its literals and their contents nor the key of an entry, so what
filtering comes to does not depend on them.
-/

namespace BareComponent.ReturnFilter

open Text Pattern Cursor

/-- The key of a text is read from its front. -/
theorem keyOf_of_some {text : Text} {offset : Nat}
    (found : topLevelOffset? Byte.colon 0 text = some offset) :
    keyOf text = trim (text.take offset) := by
  rw [keyOf, topLevelIndexOf?, found, Option.getD_some]

theorem keyOf_of_none {text : Text} (absent : topLevelOffset? Byte.colon 0 text = none) :
    keyOf text = trim text := by
  rw [keyOf, topLevelIndexOf?, absent, Option.getD_none, List.take_length]

variable {front behind : List Char}

/-- Blanks around a text do not matter to its trimmed form. -/
theorem trim_padded (blank : Blank front) (blankBehind : Blank behind) (characters : List Char) :
    trim (encode (front ++ characters ++ behind)) = trim (encode characters) := by
  simp only [Text.trim, trimStart_encode, trimEnd_encode]
  rw [rdropWhile_dropWhile_padded blank blankBehind]

section Padded

variable (blank : Blank front) (blankBehind : Blank behind)
include blank blankBehind

/-- Blanks around a text move the separators at its top level. -/
theorem topLevelOffset?_padded {separator : UInt8} (ascii : separator.toNat < 0x80)
    (dark : CharacterClass.blank separator.toNat = false) (characters : List Char) :
    topLevelOffset? separator 0 (encode (front ++ characters ++ behind)) =
      (topLevelOffset? separator 0 (encode characters)).map (· + (encode front).length) := by
  rw [encode_append, topLevelOffset?_append_of_not_mem (blankBehind.not_mem ascii dark),
    encode_append, topLevelOffset?_append (nesting?_plain 0 blank.no_brackets)
      (topLevelOffset?_eq_none (blank.not_mem ascii dark))]

/-- Blanks around a text do not change whether it is balanced. -/
theorem balanced_padded (characters : List Char) :
    Balanced (encode (front ++ characters ++ behind)) ↔ Balanced (encode characters) := by
  have plain {text : Text} (depth : Nat) : nesting? depth (text ++ encode behind) =
      nesting? depth text := by
    rw [nesting?_append]
    cases nesting? depth text with
    | none => rfl
    | some reached => exact nesting?_plain reached blankBehind.no_brackets
  rw [Text.Balanced, Text.Balanced, encode_append, plain, encode_append, nesting?_append,
    nesting?_plain 0 blank.no_brackets, Option.bind_some]

/-- Blanks around an entry do not matter to its key. -/
theorem keyOf_padded (characters : List Char) :
    keyOf (encode (front ++ characters ++ behind)) = keyOf (encode characters) := by
  have ascii : Byte.colon.toNat < 0x80 := by decide
  have dark : CharacterClass.blank Byte.colon.toNat = false := by decide
  have moved := topLevelOffset?_padded blank blankBehind ascii dark characters
  cases found : topLevelOffset? Byte.colon 0 (encode characters) with
  | none =>
    rw [found, Option.map_none] at moved
    rw [keyOf_of_none found, keyOf_of_none moved, trim_padded blank blankBehind]
  | some offset =>
    rw [found, Option.map_some] at moved
    obtain ⟨piece, rest, split, rfl⟩ := exists_separator found
    obtain ⟨first, c, second, rfl, rfl, -, -⟩ := encode_eq_append_cons split ascii
    have taken : (encode (front ++ (first ++ c :: second) ++ behind)).take
        ((encode first).length + (encode front).length) = encode (front ++ first) := by
      have shape : front ++ (first ++ c :: second) ++ behind =
          (front ++ first) ++ (c :: second ++ behind) := by simp
      have length : (encode first).length + (encode front).length =
          (encode (front ++ first)).length := by
        simp [Nat.add_comm]
      rw [shape, length, encode_append (front ++ first), List.take_left]
    have cut := trim_padded blank blank_nil first
    rw [List.append_nil] at cut
    rw [keyOf_of_some found, keyOf_of_some moved, taken, cut, encode_append, List.take_left]

end Padded

section Literals

variable {before characters : List Char} {literals : List Literal}

/-- White space belongs to no word. -/
theorem isWord_of_blank (blank : Blank front) : isWord front.getLast? = false := by
  cases last : front.getLast? with
  | none => rfl
  | some c => exact CharacterClass.word_of_blank (blank c (List.mem_of_getLast? last))

/-- No literal begins in front of white space. -/
theorem noneAt_blank {c : Char} {rest : List Char} (blank : CharacterClass.blank c.toNat = true) :
    NoneAt before (c :: rest) := by
  intro blanks content behind here
  have spelled := here.spelled
  rw [headOf_append] at spelled
  obtain ⟨rfl, -⟩ := List.cons.inj spelled
  exact absurd blank (by decide)

/-- Blanks in front of a text are passed. -/
theorem Laid.of_blank (blank : Blank front) (laid : Laid (before ++ front) characters literals) :
    Laid before (front ++ characters) literals := by
  induction front generalizing before with
  | nil => simpa using laid
  | cons c front ih =>
    obtain ⟨first, others⟩ := List.forall_mem_cons.mp blank
    exact .pass (noneAt_blank first) (ih others (by simpa using laid))

/-- The same literal in a text that has other characters in front of it. -/
def Literal.move (before other : List Char) (literal : Literal) : Literal :=
  ⟨literal.start - (encode before).length + (encode other).length, literal.content⟩

@[simp] theorem Literal.map_content_move (before other : List Char) (literals : List Literal) :
    (literals.map (Literal.move before other)).map Literal.content =
      literals.map Literal.content := by
  simp [Literal.move]

private theorem Laid.map_move {before first rest : List Char} {literals : List Literal}
    (laid : Laid (before ++ first) rest literals) (other : List Char) :
    literals.map (Literal.move (before ++ first) (other ++ first)) =
      literals.map (Literal.move before other) := by
  refine List.map_congr_left fun literal member => ?_
  have starts := laid.rising.1 literal member
  simp only [encode_append, List.length_append] at starts
  simp only [Literal.move, encode_append, List.length_append, Literal.mk.injEq, and_true]
  omega

/-- Of what stands in front of a text it matters only whether a word ends there. -/
theorem Laid.change_front {other : List Char} (laid : Laid before characters literals)
    (same : isWord before.getLast? = isWord other.getLast?) :
    Laid other characters (literals.map (Literal.move before other)) := by
  induction laid generalizing other with
  | nil => exact .nil other
  | @pass before c rest literals absent laid ih =>
    have last : isWord (before ++ [c]).getLast? = isWord (other ++ [c]).getLast? := by simp
    rw [← laid.map_move other]
    refine .pass (fun blanks content behind here => absent blanks content behind ?_) (ih last)
    exact ⟨here.spelled, same ▸ here.boundary, here.blank, here.balanced, here.closes⟩
  | @literal before rest blanks content behind literals here laid ih =>
    have inside (front : List Char) : (front ++ (headOf blanks ++ content)).getLast? =
        (headOf blanks ++ content).getLast? := by
      rw [List.getLast?_append_of_ne_nil]
      simp [headOf_ne_nil]
    rw [List.append_assoc] at laid ih
    have last : isWord (before ++ (headOf blanks ++ content)).getLast? =
        isWord (other ++ (headOf blanks ++ content)).getLast? := by rw [inside, inside]
    have there : ClosedAt other rest blanks content behind :=
      ⟨here.spelled, same ▸ here.boundary, here.blank, here.balanced, here.closes⟩
    have moved := ih last
    rw [laid.map_move other, ← List.append_assoc] at moved
    have whole := Laid.literal there moved
    simpa [Literal.move, Nat.add_comm] using whole

/-- An object closes where it closes, whatever stands behind it. -/
theorem ClosedAt.append {rest blanks content last : List Char}
    (here : ClosedAt before rest blanks content last) (behind : List Char) :
    ClosedAt before (rest ++ behind) blanks content (last ++ behind) := by
  obtain ⟨bracket, first, closes⟩ := here.closes
  obtain ⟨tail, shape⟩ := List.head?_eq_some_iff.mp first
  refine ⟨?_, here.boundary, here.blank, here.balanced, bracket, ?_, closes⟩
  · rw [here.spelled, List.append_assoc, List.append_assoc]
  · rw [encode_append, shape]
    rfl

/-- No literal closes in characters without closing brackets. -/
theorem ClosedAt.of_append {rest blanks content last : List Char}
    (unclosed : ∀ b ∈ encode behind, Byte.isClose b = false)
    (here : ClosedAt before (rest ++ behind) blanks content last) :
    ∃ others, ClosedAt before rest blanks content others := by
  obtain ⟨c, tail, bracket, rfl, bytes, closes⟩ := here.exists_closing
  have outside : c ∉ behind := fun inside => by
    have plain := unclosed bracket (List.mem_flatMap.mpr ⟨c, inside, by simp [bytes]⟩)
    rw [closes] at plain
    exact absurd plain (by decide)
  have spelled := here.spelled
  rw [← List.append_assoc] at spelled
  rcases List.append_eq_append_iff.mp spelled with ⟨more, -, split⟩ | ⟨more, rfl, split⟩
  · rw [split] at outside
    simp at outside
  · cases more with
    | nil =>
      rw [List.nil_append] at split
      rw [← split] at outside
      simp at outside
    | cons d more =>
      obtain ⟨rfl, rfl⟩ := List.cons.inj split
      exact ⟨c :: more, List.append_assoc .., here.boundary, here.blank, here.balanced, bracket,
        by simp [bytes], closes⟩

/-- Characters without closing brackets are passed. -/
theorem laid_unclosed (unclosed : ∀ b ∈ encode behind, Byte.isClose b = false) :
    Laid before behind [] := by
  induction behind generalizing before with
  | nil => exact .nil before
  | cons c rest ih =>
    have others : ∀ b ∈ encode rest, Byte.isClose b = false := fun b member =>
      unclosed b (by simp [member])
    refine .pass (fun blanks content last here => ?_) (ih others)
    have behindNothing : ClosedAt before ([] ++ c :: rest) blanks content last := here
    obtain ⟨others, there⟩ := ClosedAt.of_append unclosed behindNothing
    simpa [headOf] using there.spelled

theorem laid_blank (blank : Blank characters) : Laid before characters [] :=
  laid_unclosed fun b member => (blank.no_brackets b member).2

/-- Whether each literal that begins in some characters ends in them, whatever is behind. -/
def Sealed (before first second : List Char) : Prop :=
  ∀ front last, first = front ++ last → last ≠ [] → ∀ blanks content behind,
    ClosedAt (before ++ front) (last ++ second) blanks content behind →
      ∃ others, ClosedAt (before ++ front) last blanks content others

theorem Sealed.drop_front {first second last : List Char}
    (isSealed : Sealed before (first ++ last) second) : Sealed (before ++ first) last second := by
  intro front rest split nonempty blanks content behind here
  rw [List.append_assoc] at here ⊢
  exact isSealed (first ++ front) rest (by rw [split, List.append_assoc]) nonempty _ _ _ here

/-- No literal begins in blanks, so none reaches out of them. -/
theorem Sealed.of_blank {second : List Char} (blank : Blank characters) :
    Sealed before characters second := by
  rintro front last rfl nonempty blanks content behind here
  obtain ⟨c, rest, rfl⟩ := List.exists_cons_of_ne_nil nonempty
  have first : CharacterClass.blank c.toNat = true := blank c (by simp)
  exact absurd here (noneAt_blank first _ _ _)

/-- Behind characters that no literal reaches out of, the literals of what follows are laid out. -/
theorem Laid.append {second : List Char} {others : List Literal}
    (laid : Laid before characters literals) (isSealed : Sealed before characters second)
    (behind : Laid (before ++ characters) second others) :
    Laid before (characters ++ second) (literals ++ others) := by
  induction laid with
  | nil => simpa using behind
  | @pass before c rest literals absent _ ih =>
    have whole : Sealed before ([c] ++ rest) second := isSealed
    have next := whole.drop_front
    refine .pass (fun blanks content last here => ?_) (ih next (by simpa using behind))
    obtain ⟨others, there⟩ := isSealed [] (c :: rest) rfl (List.cons_ne_nil _ _) blanks content last
      (by simpa using here)
    exact absent _ _ _ (by simpa using there)
  | @literal before rest blanks content last literals here _ ih =>
    rw [here.spelled, ← List.append_assoc] at isSealed behind
    have next := isSealed.drop_front
    rw [← List.append_assoc] at behind next
    exact .literal (here.append second) (ih next (by simpa using behind))

/-- In front of characters without closing brackets the same literals are laid out. -/
theorem Laid.append_unclosed (unclosed : ∀ b ∈ encode behind, Byte.isClose b = false)
    (laid : Laid before characters literals) : Laid before (characters ++ behind) literals := by
  have isSealed : Sealed before characters behind := fun _ _ _ _ _ _ _ here =>
    ClosedAt.of_append unclosed here
  simpa using laid.append isSealed (laid_unclosed unclosed)

/-- Blanks around a text do not matter to what filtering comes to. -/
theorem settled_padded {names : NameSet} (blank : Blank front) (blankBehind : Blank behind)
    (characters : List Char) : Settled names (encode (front ++ characters ++ behind)) ↔
      Settled names (encode characters) := by
  obtain ⟨literals, laid, -⟩ := exists_laid characters
  have edge : isWord ([] : List Char).getLast? = isWord front.getLast? :=
    (isWord_of_blank blank).symm
  have otherLaid := laid.change_front edge
  rw [← List.nil_append front] at otherLaid
  have padded := (Laid.of_blank blank otherLaid).append_unclosed
    fun b member => (blankBehind.no_brackets b member).2
  rw [settled_iff padded, settled_iff laid, ← List.forall_mem_map (f := Literal.content)
    (P := fun content => SettledInside names (encode content)), Literal.map_content_move,
    List.forall_mem_map]

end Literals

end BareComponent.ReturnFilter
