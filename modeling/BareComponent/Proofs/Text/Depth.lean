import BareComponent.Proofs.Text.Nesting
import Mathlib.Order.Bounds.Image

/-! # One notion of depth

The searches for brackets, separators and the ends of expressions each count depth for themselves,
from different places on and in different ways where a closing bracket closes nothing. Each of them
agrees with the depth that is counted from the beginning of the text: what it finds is the first
place of a kind that only this depth and the byte at the place decide.
-/

namespace BareComponent.Text

/-- The depth behind a text in front of which it stands at `depth`. -/
def depthBehind (depth : Nat) (text : Text) : Nat := text.foldl depthStep depth

@[simp] theorem depthBehind_nil (depth : Nat) : depthBehind depth [] = depth := rfl

@[simp] theorem depthBehind_cons (depth : Nat) (b : UInt8) (rest : Text) :
    depthBehind depth (b :: rest) = depthBehind (depthStep depth b) rest := rfl

/-- Behind a place the depth is counted on from the depth at the place. -/
theorem depthAt_add (text : Text) (place offset : Nat) :
    text.depthAt (place + offset) =
      depthBehind (text.depthAt place) ((text.drop place).take offset) := by
  rw [depthAt, List.take_add, List.foldl_append]
  rfl

theorem depthStep_of_isOpen {b : UInt8} (opens : Byte.isOpen b = true) (depth : Nat) :
    depthStep depth b = depth + 1 := if_pos opens

/-- A byte that closes no more than is open moves the depth alike in any bracket around it. -/
theorem depthStep_add {depth : Nat} {b : UInt8} (deep : Byte.isClose b = true → depth ≠ 0)
    (outer : Nat) : depthStep (outer + depth) b = outer + depthStep depth b := by
  unfold depthStep
  split
  · rfl
  · split
    · next closes =>
      have := deep closes
      omega
    · rfl

/-- Whether an answer is the first of some places, or nothing where there is none. -/
def IsFirst (places : Set Nat) : (answer : Option Nat) → Prop
  | some place => IsLeast places place
  | none => places = ∅

namespace IsFirst

variable {places : Set Nat} {answer : Option Nat}

theorem map {f : Nat → Nat} (monotone : Monotone f) (first : IsFirst places answer) :
    IsFirst (f '' places) (answer.map f) := by
  cases answer with
  | some place => exact monotone.map_isLeast first
  | none => exact first ▸ Set.image_empty f

/-- Where the first place is none, the places behind it decide. -/
theorem succ (notHere : 0 ∉ places) (first : IsFirst {place | place + 1 ∈ places} answer) :
    IsFirst places (answer.map (· + 1)) := by
  have shifted : places = (· + 1) '' {place | place + 1 ∈ places} := by
    ext place
    cases place with
    | zero => simp [notHere]
    | succ place => simp
  rw [shifted]
  exact first.map fun _ _ => Nat.succ_le_succ

/-- What holds at once is found at once. -/
theorem here (found : 0 ∈ places) : IsFirst places (some 0) :=
  ⟨found, fun place _ => Nat.zero_le place⟩

end IsFirst

/-- A search for a byte finds the first one where the depth is zero. -/
theorem isFirst_topLevelOffset? {needle : UInt8}
    (plain : Byte.isOpen needle = false ∧ Byte.isClose needle = false) (depth : Nat)
    (text : Text) :
    IsFirst {offset | text[offset]? = some needle ∧ depthBehind depth (text.take offset) = 0}
      (topLevelOffset? needle depth text) := by
  induction text generalizing depth with
  | nil => simp [IsFirst, topLevelOffset?]
  | cons b rest ih =>
    rw [topLevelOffset?]
    split
    · next bracket =>
      refine .succ ?_ (ih _)
      rintro ⟨here, -⟩
      obtain rfl : b = needle := by simpa using here
      simp [plain] at bracket
    · next other =>
      have same : depthStep depth b = depth := by
        rw [not_or] at other
        simp [depthStep, other]
      split
      · next found =>
        exact .here (by simp [found])
      · next absent =>
        refine .succ ?_ ?_
        · rintro ⟨here, level⟩
          exact absent ⟨by simpa using here, by simpa using level⟩
        · have later := ih depth
          simpa [same] using later

/-- A search for a closing bracket finds the first place behind which the depth has come back to
where it stood in front of the bracket that is closed. -/
theorem isFirst_closingOffset? (outer depth : Nat) (text : Text) :
    IsFirst {offset | depthBehind (outer + (depth + 1)) (text.take (offset + 1)) = outer}
      (closingOffset? (depth + 1) text) := by
  induction text generalizing depth with
  | nil => simp [IsFirst, closingOffset?]
  | cons b rest ih =>
    have step : depthStep (outer + (depth + 1)) b = outer + depthStep (depth + 1) b :=
      depthStep_add (fun _ => Nat.succ_ne_zero depth) outer
    rw [closingOffset?]
    split
    · next closes =>
      exact .here (by simp [step, closes.2])
    · next goesOn =>
      have inside : depthStep (depth + 1) b ≠ 0 := by
        intro level
        refine goesOn ⟨?_, level⟩
        unfold depthStep at level
        grind
      obtain ⟨next, nextEq⟩ := Nat.exists_eq_succ_of_ne_zero inside
      rw [nextEq]
      refine .succ ?_ ?_
      · simp [step, inside]
      · simpa [step, nextEq] using ih next

/-- An expression ends at the first place at its depth whose byte ends it, or with the text. -/
theorem isFirst_expressionLength (outer depth : Nat) (text : Text) :
    IsFirst (insert text.length {offset |
        depthBehind (outer + depth) (text.take offset) = outer ∧
          ∃ b ∈ text[offset]?, endsExpression b = true})
      (some (expressionLength depth text)) := by
  induction text generalizing depth with
  | nil => exact .here (Set.mem_insert _ _)
  | cons b rest ih =>
    rw [expressionLength]
    split
    · next ended =>
      exact .here (.inr (by simp [ended]))
    · next goesOn =>
      have step : depthStep (outer + depth) b = outer + depthStep depth b := by
        refine depthStep_add (fun closes level => goesOn ⟨level, ?_⟩) outer
        simp [endsExpression, closes]
      have later := ih (depthStep depth b)
      refine @IsFirst.succ _ (some _) ?_ ?_
      · simpa using goesOn
      · simpa [Set.insert_def, step] using later

private theorem places_behind (start : Nat) (holds : Nat → Prop) :
    {place | start ≤ place ∧ holds place} = (start + ·) '' {offset | holds (start + offset)} := by
  ext place
  constructor
  · rintro ⟨later, here⟩
    obtain ⟨offset, rfl⟩ := Nat.exists_eq_add_of_le later
    exact ⟨offset, here, rfl⟩
  · rintro ⟨offset, here, rfl⟩
    exact ⟨Nat.le_add_right start offset, here⟩

variable (text : Text)

/-- Where a closing bracket is sought from an opening one, it is the first place behind which the
depth is that in front of the opening one. -/
theorem isFirst_closingOf? {opening : Nat} {b : UInt8} (here : text[opening]? = some b)
    (opens : Byte.isOpen b = true) :
    IsFirst {closing | opening < closing ∧ text.depthAt (closing + 1) = text.depthAt opening}
      (text.closingOf? opening) := by
  have shape : text.drop opening = b :: text.drop (opening + 1) := by
    obtain ⟨inside, rfl⟩ := List.getElem?_eq_some_iff.mp here
    exact List.drop_eq_getElem_cons inside
  have inside : text.depthAt (opening + 1) = text.depthAt opening + (0 + 1) := by
    rw [depthAt_add, shape]
    exact depthStep_of_isOpen opens _
  have found := (isFirst_closingOffset? (text.depthAt opening) 0 (text.drop (opening + 1))).map
    fun _ _ ordered => Nat.add_le_add_left ordered (opening + 1)
  simp only [← inside, ← depthAt_add, ← Nat.add_assoc] at found
  rw [closingOf?, shape]
  simp only [if_pos opens]
  rw [← places_behind (opening + 1) fun closing =>
    text.depthAt (closing + 1) = text.depthAt opening] at found
  exact found

/-- An expression ends at the first place behind its beginning that is as deep and whose byte ends
it, or with the text. -/
theorem isLeast_expressionEnd (start : Nat) :
    IsLeast (insert text.length {stop | start ≤ stop ∧ text.depthAt stop = text.depthAt start ∧
      ∃ b ∈ text[stop]?, endsExpression b = true}) (text.expressionEnd start) := by
  by_cases inside : start ≤ text.length
  · have found : IsLeast _ _ :=
      (isFirst_expressionLength (text.depthAt start) 0 (text.drop start)).map
        fun _ _ ordered => Nat.add_le_add_left ordered start
    simp only [Set.image_insert_eq, List.length_drop, Nat.add_sub_cancel' inside, Nat.add_zero,
      ← depthAt_add, List.getElem?_drop] at found
    rw [← places_behind start fun stop => text.depthAt stop = text.depthAt start ∧
      ∃ b ∈ text[stop]?, endsExpression b = true] at found
    rwa [expressionEnd, Nat.min_eq_right (found.2 (Set.mem_insert ..))]
  · have noneBehind : text.drop start = [] := List.drop_eq_nil_of_le (Nat.le_of_not_le inside)
    have whole : text.expressionEnd start = text.length := by
      rw [expressionEnd, noneBehind]
      exact Nat.min_eq_left (Nat.le_of_not_le inside)
    rw [whole]
    refine ⟨Set.mem_insert .., ?_⟩
    rintro stop (rfl | ⟨later, -, -⟩)
    · exact Nat.le_refl _
    · exact Nat.le_of_not_le fun short => inside (later.trans short)

/-- Whether a byte stands at the top level of a text at some place. -/
def TopLevel (b : UInt8) (place : Nat) : Prop := text[place]? = some b ∧ text.depthAt place = 0

instance (b : UInt8) : DecidablePred (TopLevel text b) :=
  fun _ => inferInstanceAs (Decidable (_ ∧ _))

/-- The stretches between some places, the first of which begins at `start`. -/
def spansBetween (start : Nat) : (places : List Nat) → (stop : Nat) → List Span
  | [], stop => [⟨start, stop⟩]
  | place :: places, stop => ⟨start, place⟩ :: spansBetween (place + 1) places stop

variable {text} {separator b : UInt8} {position : Nat} {rest : Text}

private theorem step_behind (behind : text.drop position = b :: rest) :
    text[position]? = some b ∧ text.drop (position + 1) = rest ∧
      text.depthAt (position + 1) = depthStep (text.depthAt position) b := by
  refine ⟨?_, ?_, ?_⟩
  · rw [← List.head?_drop, behind, List.head?_cons]
  · rw [← List.tail_drop, behind, List.tail_cons]
  · rw [depthAt_add, behind]
    rfl

private theorem piecesFrom_eq
    (plain : Byte.isOpen separator = false ∧ Byte.isClose separator = false)
    (behind : text.drop position = rest) (start : Nat) :
    piecesFrom separator (text.depthAt position) start position rest =
      spansBetween start ((List.range' position rest.length).filter (TopLevel text separator ·))
        (position + rest.length) := by
  induction rest generalizing start position with
  | nil => rfl
  | cons b rest ih =>
    obtain ⟨here, later, step⟩ := step_behind behind
    have others := ih later
    rw [step, Nat.add_right_comm, Nat.add_assoc] at others
    rw [List.length_cons, List.range'_succ, List.filter_cons, piecesFrom]
    split
    · next bracket =>
      have absent : ¬TopLevel text separator position := by
        rintro ⟨found, -⟩
        obtain rfl : b = separator := by simpa [here] using found
        simp [plain] at bracket
      rw [others, if_neg (by simpa using absent)]
    · next other =>
      have same : depthStep (text.depthAt position) b = text.depthAt position := by
        rw [not_or] at other
        simp [depthStep, other]
      rw [same] at others
      split
      · next cut =>
        have found : TopLevel text separator position := ⟨cut.1 ▸ here, cut.2⟩
        rw [others, if_pos (by simpa using found), spansBetween]
      · next absent =>
        have absent : ¬TopLevel text separator position := fun found =>
          absent ⟨Option.some.inj (here.symm.trans found.1), found.2⟩
        rw [others, if_neg (by simpa using absent)]

private theorem piecesFrom_ne_nil (separator : UInt8) (depth start position : Nat) (rest : Text) :
    piecesFrom separator depth start position rest ≠ [] := by
  induction rest generalizing depth start position with
  | nil => exact List.cons_ne_nil _ _
  | cons b rest ih =>
    rw [piecesFrom]
    split
    · exact ih _ _ _
    · split
      · exact List.cons_ne_nil _ _
      · exact ih _ _ _

private theorem join_piecesFrom {start : Nat} (depth : Nat) (behind : text.drop position = rest)
    (ordered : start ≤ position) :
    join [separator] ((piecesFrom separator depth start position rest).map text.slice) =
      text.drop start := by
  induction rest generalizing depth start position with
  | nil =>
    have whole : text.length ≤ position := List.drop_eq_nil_iff.mp behind
    simp [piecesFrom, join, slice, List.take_of_length_le whole]
  | cons b rest ih =>
    obtain ⟨here, later, -⟩ := step_behind behind
    rw [piecesFrom]
    split
    · exact ih _ later (Nat.le_succ_of_le ordered)
    · split
      · next cut =>
        obtain ⟨rfl, -⟩ := cut
        obtain ⟨next, pieces, shape⟩ :=
          List.exists_cons_of_ne_nil (piecesFrom_ne_nil b depth (position + 1) (position + 1) rest)
        have others := ih depth later (Nat.le_refl _)
        rw [shape, List.map_cons] at others
        obtain ⟨size, rfl⟩ := Nat.exists_eq_add_of_le ordered
        rw [shape, List.map_cons, List.map_cons, join_cons, others, later, ← behind, slice,
          List.drop_take, Nat.add_sub_cancel_left, ← List.drop_drop, List.take_append_drop]
      · exact ih _ later (Nat.le_succ_of_le ordered)

/-- Separators cut a text exactly where they stand at its top level. -/
theorem topLevelPieces_eq (text : Text)
    (plain : Byte.isOpen separator = false ∧ Byte.isClose separator = false) :
    text.topLevelPieces separator =
      spansBetween 0 ((List.range text.length).filter (TopLevel text separator ·)) text.length := by
  have cut := piecesFrom_eq plain (List.drop_zero : text.drop 0 = text) 0
  rwa [Nat.zero_add, ← List.range_eq_range'] at cut

/-- The searches for separators, bytes, closing brackets and the ends of expressions agree on the
depth that is counted from the beginning of the text. Separators cut a text exactly where they stand
at depth zero, so that the pieces with the separators between them are the text; a byte is found at
the first place where it stands at depth zero; what an opening bracket opens is closed at the first
place behind which the depth is that in front of it; and an expression ends at the first place as
deep as its beginning whose byte ends it, or with the text. -/
theorem brackets_share_depth (text : Text) {separator : UInt8}
    (plain : Byte.isOpen separator = false ∧ Byte.isClose separator = false) :
    (text.topLevelPieces separator =
        spansBetween 0 ((List.range text.length).filter (TopLevel text separator ·)) text.length ∧
      join [separator] ((text.topLevelPieces separator).map text.slice) = text) ∧
    IsFirst {place | TopLevel text separator place} (text.topLevelIndexOf? separator) ∧
    (∀ opening, ∀ b ∈ text[opening]?, Byte.isOpen b = true →
      IsFirst {closing | opening < closing ∧ text.depthAt (closing + 1) = text.depthAt opening}
        (text.closingOf? opening)) ∧
    ∀ start, IsLeast (insert text.length {stop | start ≤ stop ∧
      text.depthAt stop = text.depthAt start ∧ ∃ b ∈ text[stop]?, endsExpression b = true})
        (text.expressionEnd start) := by
  refine ⟨⟨topLevelPieces_eq text plain, ?_⟩, ?_, ?_, isLeast_expressionEnd text⟩
  · exact join_piecesFrom 0 rfl (Nat.le_refl 0)
  · exact isFirst_topLevelOffset? plain 0 text
  · exact fun opening b here opens => isFirst_closingOf? text here opens

/-- The depth of a text whose first bracket closes nothing, and in which a brace closes a
parenthesis. -/
theorem brackets_share_depth_unbalanced :
    let text : Text := "] a, f(b, c\x7d, d; e"
    (Byte.isOpen Byte.comma = false ∧ Byte.isClose Byte.comma = false) ∧
      text.topLevelPieces Byte.comma = [⟨0, 3⟩, ⟨4, 12⟩, ⟨13, 18⟩] ∧
      join [Byte.comma] ((text.topLevelPieces Byte.comma).map text.slice) = text ∧
      IsLeast {place | TopLevel text Byte.comma place} 3 ∧
      text[6]? = some Byte.openParen ∧ Byte.isOpen Byte.openParen = true ∧
      IsLeast {closing | 6 < closing ∧ text.depthAt (closing + 1) = text.depthAt 6} 11 ∧
      IsLeast (insert text.length {stop | 7 ≤ stop ∧ text.depthAt stop = text.depthAt 7 ∧
        ∃ b ∈ text[stop]?, endsExpression b = true}) 8 := by
  intro text
  have plain : Byte.isOpen Byte.comma = false ∧ Byte.isClose Byte.comma = false := by decide
  have opens : Byte.isOpen Byte.openParen = true := by decide
  obtain ⟨⟨cut, joined⟩, first, closes, ends⟩ := brackets_share_depth text plain
  have index : text.topLevelIndexOf? Byte.comma = some 3 := by decide
  have closing : text.closingOf? 6 = some 11 := by decide
  have closed := closes 6 Byte.openParen rfl opens
  rw [index] at first
  rw [closing] at closed
  exact ⟨plain, cut.trans (by decide), joined, first, rfl, opens, closed, ends 7⟩

end BareComponent.Text
