import BareComponent.Proofs.Pattern.Found

/-! # Patterns in a larger text

A pattern reads the same in a text and in a larger one that holds it: the text in front matters only
to a word boundary, and the text behind is not reached if the pattern stops at a character that it
does not pass before its end. There is a rule for each part that a pattern is built from.
-/

namespace BareComponent

open Text

/-- What stands around a text. A pattern that is read in the text stops at the closing character at
the latest; without one there is nothing behind the text. -/
structure Frame where
  front : List Char
  behind : List Char
  closing : Option Char
  closed : closing = none → behind = []

namespace Frame

/-- The frame of a pattern that stops at a character. -/
def closedBy (front behind : List Char) (closing : Char) : Frame :=
  ⟨front, behind, some closing, fun absent => absurd absent (Option.some_ne_none closing)⟩

variable (frame : Frame)

def offset : Nat := (encode frame.front).length

/-- The larger text. -/
def around (characters : List Char) : List Char := frame.front ++ characters ++ frame.behind

theorem encode_around (characters : List Char) : encode (frame.around characters) =
    encode frame.front ++ encode characters ++ encode frame.behind := by
  rw [around, encode_append, encode_append]

def cursor (cursor : Cursor) : Cursor :=
  ⟨cursor.before ++ (encode frame.front).reverse, cursor.after ++ encode frame.behind⟩

@[simp] theorem cursor_between (before after : List Char) :
    frame.cursor (.between before after) =
      .between (frame.front ++ before) (after ++ frame.behind) := by
  simp [cursor, Cursor.between]

@[simp] theorem position_cursor (cursor : Cursor) :
    (frame.cursor cursor).position = cursor.position + frame.offset := by
  simp [Frame.cursor, Cursor.position, offset]

/-- What holds of the closing character. -/
theorem forall_closing {frame : Frame} {c : Char} {property : Char → Prop}
    (closing : frame.closing = some c) (holds : property c) : ∀ d ∈ frame.closing, property d := by
  intro d same
  obtain rfl := Option.some.inj (closing.symm.trans same)
  exact holds

/-- Whether a text has the closing character. -/
def Closes (after : List Char) : Prop := ∀ c ∈ frame.closing, c ∈ after

/-- Whether some characters are passed without the closing character among them. -/
def Avoids (passed : List Char) : Prop := ∀ c ∈ frame.closing, c ∉ passed

/-- Whether some characters end with the closing character and do not have it before. -/
def Ends (passed : List Char) : Prop :=
  ∃ body c, frame.closing = some c ∧ passed = body ++ [c] ∧ c ∉ body

variable {frame}

theorem Avoids.append {first second : List Char} (avoids : frame.Avoids first)
    (others : frame.Avoids second) : frame.Avoids (first ++ second) := fun c closes member =>
  (List.mem_append.mp member).elim (avoids c closes) (others c closes)

theorem Avoids.append_ends {first second : List Char} (avoids : frame.Avoids first)
    (ends : frame.Ends second) : frame.Ends (first ++ second) := by
  obtain ⟨body, c, closing, rfl, apart⟩ := ends
  exact ⟨first ++ body, c, closing, by rw [List.append_assoc], fun member =>
    (List.mem_append.mp member).elim (avoids c closing) apart⟩

theorem ends_singleton {c : Char} (closing : frame.closing = some c) : frame.Ends [c] :=
  ⟨[], c, closing, rfl, List.not_mem_nil⟩

theorem Closes.of_avoids {passed rest : List Char} (closes : frame.Closes (passed ++ rest))
    (avoids : frame.Avoids passed) : frame.Closes rest := fun c closing =>
  (List.mem_append.mp (closes c closing)).resolve_left (avoids c closing)

/-- What a larger text begins with and what does not reach the closing character stands in the
text. -/
theorem Closes.exists_append {after passed rest : List Char} (closes : frame.Closes after)
    (avoids : frame.Avoids passed) (split : after ++ frame.behind = passed ++ rest) :
    ∃ last, after = passed ++ last ∧ rest = last ++ frame.behind := by
  rcases List.append_eq_append_iff.mp split with ⟨more, rfl, behind⟩ | ⟨last, rfl, rfl⟩
  · cases closing : frame.closing with
    | none =>
      obtain ⟨rfl, rfl⟩ := List.append_eq_nil_iff.mp (behind.symm.trans (frame.closed closing))
      exact ⟨[], by simp, by simpa using behind.symm⟩
    | some c => exact absurd (List.mem_append_left _ (closes c closing)) (avoids c closing)
  · exact ⟨last, rfl, rfl⟩

/-- Behind a text without the closing character nothing stands. -/
theorem Closes.behind_eq_nil (closes : frame.Closes []) : frame.behind = [] := by
  apply frame.closed
  cases shape : frame.closing with
  | none => rfl
  | some c => exact absurd (closes c shape) List.not_mem_nil

end Frame

namespace Pattern

open Cursor

variable {α β : Type}

/-- Whether a pattern passes stretches with a property only, and whether in a larger text another
pattern reads the same, what it answers moved to where it stands there. -/
structure Framed (frame : Frame) (property : List Char → Prop) (moved : α → α)
    (larger pattern : Pattern α) : Prop where
  mapped : ∀ before after, frame.Closes after →
    larger (frame.cursor (between before after)) =
      (pattern (between before after)).map (Prod.map moved frame.cursor)
  passes : ∀ before after value next, (value, next) ∈ pattern (between before after) →
    ∃ passed rest, after = passed ++ rest ∧ property passed ∧ next = between (before ++ passed) rest

/-- A part of a pattern that does not pass the closing character. -/
abbrev Inner (frame : Frame) (moved : α → α) (larger pattern : Pattern α) : Prop :=
  Framed frame frame.Avoids moved larger pattern

/-- A pattern that ends with the closing character and does not pass it before. -/
abbrev Outer (frame : Frame) (moved : α → α) (larger pattern : Pattern α) : Prop :=
  Framed frame frame.Ends moved larger pattern

variable {frame : Frame} {property : List Char → Prop}

namespace Framed

theorem bind {moved : α → α} {larger pattern : Pattern α} {moved' : β → β}
    {larger' pattern' : α → Pattern β} (inner : Inner frame moved larger pattern)
    (others : ∀ value, Framed frame property moved' (larger' (moved value)) (pattern' value))
    (joins : ∀ passed more, frame.Avoids passed → property more → property (passed ++ more)) :
    Framed frame property moved' (larger >>= larger') (pattern >>= pattern') where
  mapped before after closes := by
    have both : (larger >>= larger') (frame.cursor (between before after)) =
        (pattern (between before after)).flatMap fun read =>
          larger' (moved read.1) (frame.cursor read.2) := by
      simp only [Bind.bind, inner.mapped before after closes, List.flatMap_map]
      rfl
    rw [both]
    simp only [Bind.bind, List.map_flatMap]
    refine List.flatMap_congr fun read member => ?_
    obtain ⟨passed, rest, rfl, avoids, next⟩ := inner.passes before after read.1 read.2 member
    rw [next]
    exact (others read.1).mapped _ _ (closes.of_avoids avoids)
  passes before after value next member := by
    obtain ⟨read, middle, here, behind⟩ := mem_bind.mp member
    obtain ⟨passed, rest, rfl, avoids, rfl⟩ := inner.passes before after read middle here
    obtain ⟨more, last, rfl, holds, rfl⟩ := (others read).passes _ _ value next behind
    exact ⟨passed ++ more, last, by rw [List.append_assoc], joins passed more avoids holds,
      by rw [List.append_assoc]⟩

/-- What is read at a place is read at its place in the larger text. -/
theorem matchAt?_eq {moved : α → α} {larger pattern : Pattern α}
    (framed : Framed frame property moved larger pattern) (before : List Char) {after : List Char}
    (closes : frame.Closes after) :
    matchAt? larger (between (frame.front ++ before) (after ++ frame.behind)) =
      (matchAt? pattern (between before after)).map fun found =>
        ⟨found.span.shift frame.offset, moved found.value⟩ := by
  rw [← Frame.cursor_between, matchAt?, matchAt?, framed.mapped before after closes]
  cases pattern (between before after) with
  | nil => rfl
  | cons first others =>
    simp only [List.map_cons, Prod.map, Frame.position_cursor, Nat.add_lt_add_iff_right]
    split <;> rfl

end Framed

private theorem literal_eq_map {needle after : List Char} (before : List Char)
    (inside : ∀ rest, after ++ frame.behind = needle ++ rest → ∃ last, after = needle ++ last) :
    literal (encode needle) (frame.cursor (between before after)) =
      (literal (encode needle) (between before after)).map (Prod.map id frame.cursor) := by
  rw [Frame.cursor_between]
  by_cases starts : ∃ rest, after = needle ++ rest
  · obtain ⟨rest, rfl⟩ := starts
    rw [List.append_assoc, literal_between, literal_between]
    simp
  · have larger : literal (encode needle)
        (between (frame.front ++ before) (after ++ frame.behind)) = [] :=
      List.eq_nil_iff_forall_not_mem.mpr fun _ member =>
        have ⟨rest, split, _⟩ := mem_literal.mp member
        starts (inside rest split)
    have smaller : literal (encode needle) (between before after) = [] :=
      List.eq_nil_iff_forall_not_mem.mpr fun _ member =>
        have ⟨rest, split, _⟩ := mem_literal.mp member
        starts ⟨rest, split⟩
    rw [larger, smaller, List.map_nil]

namespace Inner

theorem bind {moved : α → α} {larger pattern : Pattern α} {moved' : β → β}
    {larger' pattern' : α → Pattern β} (inner : Inner frame moved larger pattern)
    (others : ∀ value, Inner frame moved' (larger' (moved value)) (pattern' value)) :
    Inner frame moved' (larger >>= larger') (pattern >>= pattern') :=
  Framed.bind inner others fun _ _ => Frame.Avoids.append

theorem pure (moved : α → α) (value : α) :
    Inner frame moved (Pure.pure (moved value)) (Pure.pure value) where
  mapped _ _ _ := rfl
  passes before after other next member := by
    obtain ⟨-, rfl⟩ := mem_pure.mp member
    exact ⟨[], after, rfl, fun _ _ => List.not_mem_nil, by rw [List.append_nil]⟩

theorem check {holds : Cursor → Bool} (same : ∀ before after, frame.Closes after →
      holds (frame.cursor (between before after)) = holds (between before after)) :
    Inner frame id (check holds) (check holds) where
  mapped before after closes := by
    rw [Pattern.check, Pattern.check, same before after closes]
    split <;> rfl
  passes before after value next member := by
    obtain ⟨-, rfl⟩ := mem_check.mp member
    exact ⟨[], after, rfl, fun _ _ => List.not_mem_nil, by rw [List.append_nil]⟩

/-- A word boundary is one in the larger text if no word goes over from the front into the text. -/
theorem wordBoundary (seam : isWord frame.front.getLast? = false) :
    Inner frame id wordBoundary wordBoundary where
  mapped before after closes := by
    have wordBefore : isWord (frame.front ++ before).getLast? = isWord before.getLast? := by
      rcases List.eq_nil_or_concat' before with rfl | ⟨first, c, rfl⟩
      · rw [List.append_nil, seam]
        rfl
      · rw [← List.append_assoc, List.getLast?_concat, List.getLast?_concat]
    have wordAfter : (after ++ frame.behind).head? = after.head? := by
      cases after with
      | nil => rw [closes.behind_eq_nil, List.append_nil]
      | cons c rest => rfl
    rw [Frame.cursor_between, wordBoundary_between, wordBoundary_between, wordBefore, wordAfter]
    split
    · simp
    · rfl
  passes before after value next member := by
    obtain ⟨-, rfl⟩ := mem_wordBoundary.mp member
    exact ⟨[], after, rfl, fun _ _ => List.not_mem_nil, by rw [List.append_nil]⟩

theorem literal (needle : List Char) (avoids : frame.Avoids needle) :
    Inner frame id (literal (encode needle)) (literal (encode needle)) where
  mapped before after closes := literal_eq_map before fun rest split =>
    (closes.exists_append avoids split).imp fun _ both => both.1
  passes before after value next member := by
    obtain ⟨rest, rfl, rfl⟩ := mem_literal.mp member
    exact ⟨needle, rest, rfl, avoids, rfl⟩

theorem oneOf {needles : List Text}
    (avoids : ∀ needle ∈ needles, ∃ characters, needle = encode characters ∧
      frame.Avoids characters) : Inner frame id (oneOf needles) (oneOf needles) where
  mapped before after closes := by
    rw [Pattern.oneOf, Pattern.oneOf, List.map_flatMap]
    refine List.flatMap_congr fun needle member => ?_
    obtain ⟨characters, rfl, apart⟩ := avoids needle member
    exact (literal characters apart).mapped before after closes
  passes before after value next member := by
    obtain ⟨needle, inside, here⟩ := mem_oneOf.mp member
    obtain ⟨characters, rfl, apart⟩ := avoids needle inside
    exact (literal characters apart).passes before after value next here

section Classes

variable {members : CharacterClass}

private theorem avoids_of_stops (stops : ∀ c ∈ frame.closing, members c.toNat = false)
    {passed : List Char} (inside : ∀ c ∈ passed, members c.toNat = true) : frame.Avoids passed := by
  intro c closing member
  have outside := stops c closing
  rw [inside c member] at outside
  contradiction

theorem run (stops : ∀ c ∈ frame.closing, members c.toNat = false) :
    Inner frame id (run members) (run members) where
  mapped before after closes := by
    have inside : ∀ c ∈ after.takeWhile (members ·.toNat), members c.toNat = true :=
      fun c member => by simpa using List.mem_takeWhile_imp member
    have whole := List.takeWhile_append_dropWhile (p := (members ·.toNat)) (l := after)
    rw [Frame.cursor_between, Pattern.run, Pattern.run, skip_between, skip_between]
    cases shape : after.dropWhile (members ·.toNat) with
    | nil =>
      rw [shape, List.append_nil] at whole
      rw [whole] at inside ⊢
      have nothing : frame.behind = [] := by
        rw [← List.append_nil after] at closes
        exact (closes.of_avoids (avoids_of_stops stops inside)).behind_eq_nil
      simp [nothing, whole, shape]
    | cons c rest =>
      have stop : members c.toNat = false := by
        simpa [shape] using List.head?_dropWhile_not (members ·.toNat) after
      rw [shape] at whole
      nth_rewrite 1 2 [← whole]
      simp [List.takeWhile_append_of_pos inside, List.dropWhile_append_of_pos inside, stop]
  passes before after value next member := by
    obtain ⟨passed, rest, rfl, inside, -, rfl⟩ := mem_run.mp member
    exact ⟨passed, rest, rfl, avoids_of_stops stops inside, rfl⟩

theorem character (stops : ∀ c ∈ frame.closing, members c.toNat = false) :
    Inner frame id (character members) (character members) where
  mapped before after closes := by
    cases after with
    | nil => simp [closes.behind_eq_nil, Pattern.character]
    | cons c rest =>
      rw [Frame.cursor_between, List.cons_append, character_between, character_between]
      split
      · simp
      · rfl
  passes before after value next member := by
    obtain ⟨c, rest, rfl, inside, rfl⟩ := mem_character.mp member
    exact ⟨[c], rest, rfl, avoids_of_stops stops (by simpa using inside), rfl⟩

theorem run1 (stops : ∀ c ∈ frame.closing, members c.toNat = false) :
    Inner frame id (run1 members) (run1 members) :=
  (character stops).bind fun _ => run stops

theorem name (stops : ∀ c ∈ frame.closing, CharacterClass.wordOrDollar c.toNat = false) :
    Inner frame id name name :=
  (character fun c closing => by
    rw [← Bool.not_eq_true]
    intro starts
    simpa [stops c closing] using CharacterClass.wordOrDollar_of_starts starts).bind
      fun _ => run stops

end Classes

theorem optional {pattern : Pattern α} (inner : Inner frame id pattern pattern) :
    Inner frame id (optional pattern) (optional pattern) where
  mapped before after closes := by
    rw [Pattern.optional, Pattern.optional, inner.mapped before after closes, List.map_append,
      List.map_map, List.map_map]
    rfl
  passes before after value next member := by
    rcases mem_optional.mp member with ⟨read, -, here⟩ | ⟨-, rfl⟩
    · exact inner.passes before after read next here
    · exact ⟨[], after, rfl, fun _ _ => List.not_mem_nil, by rw [List.append_nil]⟩

theorem spanned {pattern : Pattern Unit} (inner : Inner frame id pattern pattern) :
    Inner frame (Span.shift · frame.offset) (spanned pattern) (spanned pattern) where
  mapped before after closes := by
    rw [Pattern.spanned, Pattern.spanned, inner.mapped before after closes, List.map_map,
      List.map_map]
    refine List.map_congr_left fun read _ => ?_
    simp only [Function.comp_apply, Prod.map, Span.shift, Frame.position_cursor, id]
  passes before after value next member :=
    inner.passes before after () next (mem_spanned.mp member).1

/-- The end of a text is its end in the larger text if nothing stands behind it. -/
theorem textEnd (nothing : frame.behind = []) : Inner frame id textEnd textEnd := by
  refine check fun before after _ => ?_
  rw [Frame.cursor_between, nothing, List.append_nil]
  rfl

end Inner

namespace Outer

theorem bind {moved : α → α} {larger pattern : Pattern α} {moved' : β → β}
    {larger' pattern' : α → Pattern β} (inner : Inner frame moved larger pattern)
    (others : ∀ value, Outer frame moved' (larger' (moved value)) (pattern' value)) :
    Outer frame moved' (larger >>= larger') (pattern >>= pattern') :=
  Framed.bind inner others fun _ _ => Frame.Avoids.append_ends

/-- A piece of text with the closing character at its end may end a pattern. -/
theorem literal {needle : List Char} (ends : frame.Ends needle) :
    Outer frame id (literal (encode needle)) (literal (encode needle)) where
  mapped before after closes := by
    obtain ⟨body, c, closing, rfl, apart⟩ := ends
    refine literal_eq_map before fun rest split => ?_
    rcases List.append_eq_append_iff.mp split with ⟨more, whole, -⟩ | ⟨last, rfl, -⟩
    · cases more using List.reverseRecOn with
      | nil => exact ⟨[], by simpa using whole.symm⟩
      | append_singleton more d _ =>
        rw [← List.append_assoc] at whole
        obtain rfl := List.append_inj_left' whole rfl
        exact absurd (List.mem_append_left _ (closes c closing)) apart
    · exact ⟨last, rfl⟩
  passes before after value next member := by
    obtain ⟨rest, rfl, rfl⟩ := mem_literal.mp member
    exact ⟨needle, rest, rfl, ends, rfl⟩

/-- A pattern may answer behind the closing character. -/
theorem andPure {pattern : Pattern Unit} (outer : Outer frame id pattern pattern) (moved : α → α)
    (value : α) : Outer frame moved (do pattern; pure (moved value)) (do pattern; pure value) where
  mapped before after closes := by
    simp only [Bind.bind, Pure.pure, outer.mapped before after closes, List.flatMap_map,
      List.map_flatMap, List.map_cons, List.map_nil, Prod.map]
  passes before after read next member := by
    obtain ⟨first, middle, here, last⟩ := mem_bind.mp member
    obtain ⟨-, rfl⟩ := mem_pure.mp last
    exact outer.passes before after first next here

end Outer

end Pattern

end BareComponent
