import BareComponent.Proofs.ReturnFilter.Literal

/-! # Exchanging contents

The outermost literals of a text cut it into gaps and contents. Other balanced contents may stand in
the same gaps, and the outermost literals of the new text are those with the new contents: no
bracket outside them changes its partner, and no literal begins where none began.
-/

namespace BareComponent.ReturnFilter

open Text Pattern Cursor

/-- What stands between two contents, and the content behind it. -/
structure Part (α : Type) where
  gap : List α
  content : List α
deriving DecidableEq, Repr

/-- Parts one behind the other, and the text behind the last one. -/
def weave {α : Type} (tail : List α) : List (Part α) → List α
  | [] => tail
  | part :: parts => part.gap ++ part.content ++ weave tail parts

theorem weave_eq_append {α : Type} (tail : List α) (parts : List (Part α)) :
    weave tail parts = weave [] parts ++ tail := by
  induction parts with
  | nil => rfl
  | cons part parts ih => rw [weave, weave, ih, List.append_assoc (part.gap ++ part.content)]

theorem content_sublist_weave {α : Type} (tail : List α) {parts : List (Part α)} {part : Part α}
    (member : part ∈ parts) : part.content.Sublist (weave tail parts) := by
  induction parts with
  | nil => simp at member
  | cons first parts ih =>
    rw [weave]
    rcases List.mem_cons.mp member with rfl | later
    · exact (List.sublist_append_right ..).trans (List.sublist_append_left ..)
    · exact (ih later).trans (List.sublist_append_right ..)

/-- The literals with the contents of some parts, of which the first begins at `start`. -/
def literalsAt (start : Nat) : List (Part Char) → List Literal
  | [] => []
  | part :: parts =>
    ⟨start + (encode part.gap).length, part.content⟩ ::
      literalsAt (start + (encode part.gap).length + (encode part.content).length) parts

@[simp] theorem map_content_literalsAt (start : Nat) (parts : List (Part Char)) :
    (literalsAt start parts).map Literal.content = parts.map Part.content := by
  induction parts generalizing start with
  | nil => rfl
  | cons part parts ih => simp [literalsAt, ih]

/-- The last of some literals ends where its part ends. -/
theorem exists_last_literalsAt {parts : List (Part Char)} (nonempty : parts ≠ []) (start : Nat) :
    ∃ literal ∈ literalsAt start parts,
      literal.span.stop = start + (encode (weave [] parts)).length := by
  induction parts generalizing start with
  | nil => exact absurd rfl nonempty
  | cons part parts ih =>
    cases parts with
    | nil =>
      refine ⟨_, List.mem_cons_self, ?_⟩
      simp [Literal.span, weave, Nat.add_assoc]
    | cons next parts =>
      obtain ⟨literal, member, stops⟩ := ih (List.cons_ne_nil _ _)
        (start + (encode part.gap).length + (encode part.content).length)
      have whole : weave [] (part :: next :: parts) =
          part.gap ++ part.content ++ weave [] (next :: parts) := rfl
      refine ⟨literal, List.mem_cons_of_mem _ member, stops.trans ?_⟩
      rw [whole, encode_append, encode_append, List.length_append, List.length_append]
      omega

/-- Two texts that differ only in the balanced contents behind some of their braces. -/
inductive Alike : List Char → List Char → Prop
  | nil : Alike [] []
  | same (c : Char) {first second : List Char} (behind : Alike first second) :
      Alike (c :: first) (c :: second)
  | content {inner other first second : List Char} (balanced : Balanced (encode inner))
      (otherBalanced : Balanced (encode other)) (behind : Alike first second) :
      Alike ('{' :: (inner ++ first)) ('{' :: (other ++ second))

namespace Alike

variable {first second : List Char}

theorem refl (characters : List Char) : Alike characters characters := by
  induction characters with
  | nil => exact .nil
  | cons c rest ih => exact .same c ih

theorem append_left (front : List Char) (alike : Alike first second) :
    Alike (front ++ first) (front ++ second) := by
  induction front with
  | nil => exact alike
  | cons c front ih => exact .same c ih

theorem append {front other : List Char} (fronts : Alike front other)
    (alike : Alike first second) : Alike (front ++ first) (other ++ second) := by
  induction fronts with
  | nil => exact alike
  | same c _ ih => exact .same c ih
  | content balanced otherBalanced _ ih =>
    simpa using content balanced otherBalanced ih

theorem nesting? (alike : Alike first second) (depth : Nat) :
    nesting? depth (encode first) = Text.nesting? depth (encode second) := by
  induction alike generalizing depth with
  | nil => rfl
  | same c _ ih => simp only [encode_cons, nesting?_append, ih]
  | @content inner other first second balanced otherBalanced _ ih =>
    simp only [encode_cons, encode_append, nesting?_append _ (String.utf8EncodeChar '{')]
    cases opened : Text.nesting? depth (String.utf8EncodeChar '{') with
    | none => rfl
    | some deeper =>
      rw [Option.bind_some, Option.bind_some, balanced.nesting?_append,
        otherBalanced.nesting?_append, ih]

theorem balanced_iff (alike : Alike first second) :
    Balanced (encode first) ↔ Balanced (encode second) := by
  rw [Text.Balanced, Text.Balanced, alike.nesting?]

theorem head? (alike : Alike first second) : first.head? = second.head? := by
  cases alike <;> rfl

/-- What is behind the first brace nests alike. -/
theorem exists_behind {front behind : List Char} (noBrace : '{' ∉ front)
    (alike : Alike first (front ++ '{' :: behind)) : ∃ rest, first = front ++ '{' :: rest ∧
      ∀ depth, Text.nesting? depth (encode rest) = Text.nesting? depth (encode behind) := by
  induction front generalizing first with
  | nil =>
    cases shape : '{' :: behind with
    | nil => contradiction
    | cons c others =>
      rw [List.nil_append, shape] at alike
      cases alike with
      | same c alike =>
        obtain ⟨rfl, rfl⟩ := List.cons.inj shape
        exact ⟨_, rfl, alike.nesting?⟩
      | content balanced otherBalanced alike =>
        obtain ⟨-, rfl⟩ := List.cons.inj shape
        refine ⟨_, rfl, fun depth => ?_⟩
        rw [encode_append, encode_append, balanced.nesting?_append, otherBalanced.nesting?_append,
          alike.nesting?]
  | cons c front ih =>
    obtain ⟨otherBrace, noBrace⟩ := not_or.mp (mt List.mem_cons.mpr noBrace)
    generalize shape : c :: front ++ '{' :: behind = whole at alike
    cases alike with
    | nil => simp at shape
    | same c alike =>
      obtain ⟨rfl, rfl⟩ := List.cons.inj shape
      obtain ⟨rest, rfl, nests⟩ := ih noBrace alike
      exact ⟨rest, rfl, nests⟩
    | content => exact absurd (List.cons.inj shape).1.symm otherBrace

/-- Where no literal begins, none begins in a text that is alike. -/
theorem noneAt {before others : List Char} (alike : Alike first second)
    (behind : isWord before.getLast? = isWord others.getLast? ∨ first.head? ≠ some 'r')
    (absent : NoneAt before first) : NoneAt others second := by
  intro blanks content last here
  have noBrace : '{' ∉ keyword ++ blanks := by
    have dark : ¬CharacterClass.blank '{'.toNat = true := by decide
    rw [List.mem_append]
    rintro (letter | gap)
    · exact absurd letter (by decide)
    · exact dark (here.blank '{' gap)
  have spelled := here.spelled
  have begins := spelled
  rw [headOf_append] at begins
  rw [headOf, List.append_assoc, List.singleton_append] at spelled
  obtain ⟨rest, split, nests⟩ := exists_behind noBrace (spelled ▸ alike)
  have stuck : Text.nesting? 0 (encode rest) = none := by
    obtain ⟨bracket, shown, closes⟩ := here.closes
    obtain ⟨tail, bytes⟩ := List.head?_eq_some_iff.mp shown
    rw [nests, encode_append]
    exact nesting?_eq_none_iff.mpr ⟨_, bracket, tail, by rw [bytes], here.balanced, closes⟩
  have boundary : isWord before.getLast? = false := by
    rcases behind with same | other
    · rw [same, here.boundary]
    · rw [alike.head?, begins] at other
      exact absurd rfl other
  have shape : first = headOf blanks ++ rest := by
    rw [split, headOf, List.append_assoc _ ['{'], List.singleton_append]
  obtain ⟨inner, behind, there⟩ := exists_closedAt here.blank boundary stuck
  exact absent _ _ _ (shape ▸ there)

end Alike

/-- A head with balanced contents is alike with either content. -/
theorem alike_headOf {content other : List Char} (blanks : List Char)
    (balanced : Balanced (encode content)) (otherBalanced : Balanced (encode other)) :
    Alike (headOf blanks ++ content) (headOf blanks ++ other) := by
  have brace := Alike.content balanced otherBalanced .nil
  rw [List.append_nil, List.append_nil] at brace
  simpa [headOf] using brace.append_left (keyword ++ blanks)

/-- The gap in front of a closed literal that stands where it ends is the head of the literal. -/
theorem ClosedAt.gap_eq {before rest blanks content last gap inner behind : List Char}
    (here : ClosedAt before rest blanks content last) (spelled : rest = gap ++ inner ++ behind)
    (starts : (encode (before ++ headOf blanks)).length =
      (encode before).length + (encode gap).length) : gap = headOf blanks := by
  have bytes := congrArg encode (spelled.symm.trans here.spelled)
  simp only [encode_append, List.append_assoc] at bytes
  simp only [encode_append, List.length_append, Nat.add_left_cancel_iff] at starts
  exact encode_injective (List.append_inj_left bytes starts.symm)

/-- No literal begins right behind a closed one. -/
theorem ClosedAt.head?_behind_ne {before rest blanks content behind : List Char}
    (here : ClosedAt before rest blanks content behind) : behind.head? ≠ some 'r' := by
  obtain ⟨c, tail, bracket, closing, bytes, closes⟩ := here.exists_closing
  rw [closing, List.head?_cons]
  intro letter
  obtain rfl := Option.some.inj letter
  obtain rfl := List.singleton_inj.mp bytes
  exact absurd closes (by decide)

/-- A closed literal with another balanced content is closed in front of a text that is alike. -/
theorem ClosedAt.exchange {before rest blanks content behind front other others : List Char}
    (here : ClosedAt before rest blanks content behind) (balanced : Balanced (encode other))
    (alike : Alike behind others) (boundary : isWord front.getLast? = false) :
    ClosedAt front (headOf blanks ++ other ++ others) blanks other others := by
  obtain ⟨c, tail, bracket, closing, bytes, closes⟩ := here.exists_closing
  have first : others.head? = some c := by rw [← alike.head?, closing, List.head?_cons]
  have shown : (encode others).head? = some bracket := by
    obtain ⟨last, rfl⟩ := List.head?_eq_some_iff.mp first
    rw [encode_cons, bytes]
    rfl
  exact ⟨List.append_assoc .., boundary, here.blank, balanced, bracket, shown, closes⟩

/-- Literals that are laid out behind a closed one whose content is exchanged stay laid out. -/
theorem ClosedAt.laid_exchange {before rest blanks content behind front other others : List Char}
    {literals : List Literal} (here : ClosedAt before rest blanks content behind)
    (balanced : Balanced (encode other)) (alike : Alike behind others)
    (boundary : isWord front.getLast? = false)
    (laid : Laid (front ++ headOf blanks ++ other) others literals) :
    Alike rest (headOf blanks ++ other ++ others) ∧
      Laid front (headOf blanks ++ other ++ others)
        (⟨(encode (front ++ headOf blanks)).length, other⟩ :: literals) := by
  refine ⟨?_, .literal (here.exchange balanced alike boundary) laid⟩
  rw [here.spelled, ← List.append_assoc]
  exact (alike_headOf blanks here.balanced balanced).append alike

/-- Two parts with the same gap, of which the second has a balanced content. -/
def Exchanged (part other : Part Char) : Prop :=
  part.gap = other.gap ∧ Balanced (encode other.content)

section Passing

variable {first rest gap content : List Char} {c : Char} {parts : List (Part Char)}

/-- A character of the first gap moves what is in front of the literals. -/
theorem literalsAt_cons_gap (first gap content : List Char) (c : Char) (parts : List (Part Char)) :
    literalsAt (encode (first ++ [c])).length (⟨gap, content⟩ :: parts) =
      literalsAt (encode first).length (⟨c :: gap, content⟩ :: parts) := by
  simp [literalsAt, Nat.add_assoc]

/-- No literal begins before a character that none begins at. -/
theorem Laid.gap_ne_nil
    (laid : Laid (first ++ [c]) rest (literalsAt (encode first).length (⟨gap, content⟩ :: parts))) :
    gap ≠ [] := by
  rintro rfl
  have starts := laid.rising.1 _ List.mem_cons_self
  have someByte : 0 < (encode [c]).length := encode_singleton_pos c
  rw [encode_append, List.length_append, encode_nil, List.length_nil] at starts
  dsimp only at starts
  omega

end Passing

/-- The literals of a text with other contents in its gaps are those with the other contents. -/
theorem Laid.exchange {before rest front tail : List Char} {literals : List Literal}
    {parts others : List (Part Char)} (laid : Laid before rest literals)
    (spelled : rest = weave tail parts)
    (places : literals = literalsAt (encode before).length parts)
    (exchanged : List.Forall₂ Exchanged parts others)
    (behind : isWord before.getLast? = isWord front.getLast? ∨ rest.head? ≠ some 'r') :
    Alike rest (weave tail others) ∧
      Laid front (weave tail others) (literalsAt (encode front).length others) := by
  induction laid generalizing parts others front tail with
  | nil =>
    cases exchanged with
    | nil =>
      obtain rfl : [] = tail := spelled
      exact ⟨.nil, .nil front⟩
    | cons => simp [literalsAt] at places
  | @pass before c rest literals absent laid ih =>
    have next : isWord (before ++ [c]).getLast? = isWord (front ++ [c]).getLast? := by simp
    cases exchanged with
    | nil =>
      obtain rfl : c :: rest = tail := spelled
      have restSpelled : rest = weave rest [] := rfl
      obtain ⟨alike, othersLaid⟩ := ih restSpelled places .nil (.inl next)
      have whole := Alike.same c alike
      exact ⟨whole, .pass (whole.noneAt behind absent) othersLaid⟩
    | @cons part other parts others same exchanged =>
      obtain ⟨gap, content⟩ := part
      obtain ⟨_, other⟩ := other
      obtain ⟨rfl, balanced⟩ : gap = _ ∧ Balanced (encode other) := same
      subst places
      obtain ⟨d, gap, rfl⟩ := List.exists_cons_of_ne_nil laid.gap_ne_nil
      obtain ⟨rfl, rfl⟩ := List.cons.inj spelled
      have othersExchanged : List.Forall₂ Exchanged (⟨gap, content⟩ :: parts)
          (⟨gap, other⟩ :: others) := .cons ⟨rfl, balanced⟩ exchanged
      obtain ⟨alike, othersLaid⟩ := ih rfl (literalsAt_cons_gap before gap content c parts).symm
        othersExchanged (.inl next)
      have whole := Alike.same c alike
      rw [literalsAt_cons_gap] at othersLaid
      exact ⟨whole, .pass (whole.noneAt behind absent) othersLaid⟩
  | @literal before rest blanks content last literals here laid ih =>
    cases exchanged with
    | nil => simp [literalsAt] at places
    | @cons part other parts others same exchanged =>
      obtain ⟨gap, inner⟩ := part
      obtain ⟨_, other⟩ := other
      obtain ⟨rfl, balanced⟩ : gap = _ ∧ Balanced (encode other) := same
      obtain ⟨place, places⟩ := List.cons.inj places
      rw [Literal.mk.injEq] at place
      obtain ⟨starts, rfl⟩ := place
      obtain rfl := here.gap_eq spelled starts
      obtain rfl : last = weave tail parts := by
        simpa [weave] using here.spelled.symm.trans spelled
      have boundary : isWord front.getLast? = false := by
        rcases behind with same | other
        · rw [← same, here.boundary]
        · exact absurd (by rw [here.spelled]; rfl) other
      obtain ⟨alike, othersLaid⟩ := ih rfl (places.trans (by simp [Nat.add_assoc])) exchanged
        (.inr here.head?_behind_ne)
      have whole := here.laid_exchange balanced alike boundary othersLaid
      simpa [weave, literalsAt, Nat.add_assoc] using whole

end BareComponent.ReturnFilter
