import BareComponent.Proofs.LocalNames.Assigned
import BareComponent.Proofs.LocalNames.Destructured

/-! # Function bodies in a larger text

A closing bracket that is found in a text is found in a larger one, so parameters and bodies in
braces stay what they are. The body of an arrow function may go on behind the text if nothing in the
text ends it.
-/

namespace BareComponent

open Text Pattern LocalNames

namespace Text

variable {front text behind : Text} {position : Nat}

theorem drop_around (front behind : Text) (inside : position ≤ text.length) :
    (front ++ text ++ behind).drop (position + front.length) = text.drop position ++ behind := by
  rw [List.append_assoc, Nat.add_comm, List.drop_length_add_append,
    List.drop_append_of_le_length inside]

theorem getElem?_around (front behind : Text) (inside : position < text.length) :
    (front ++ text ++ behind)[position + front.length]? = text[position]? := by
  rw [List.append_assoc, Nat.add_comm, List.getElem?_append_right (Nat.le_add_right ..),
    Nat.add_sub_cancel_left, List.getElem?_append_left inside]

/-- What a span takes out of a text it takes out of a larger one where it stands there. -/
theorem slice_around {span : Span} (inside : span.stop ≤ text.length) :
    (front ++ text ++ behind).slice (span.shift front.length) = text.slice span := by
  rw [List.append_assoc, slice_shift, slice_append_of_le inside]

theorem closingOffset?_append_of_some {depth offset : Nat}
    (found : closingOffset? depth text = some offset) (behind : Text) :
    closingOffset? depth (text ++ behind) = some offset := by
  induction text generalizing depth offset with
  | nil => simp [closingOffset?] at found
  | cons b rest ih =>
    rw [closingOffset?] at found
    rw [List.cons_append, closingOffset?]
    split at found
    · next closes => rwa [if_pos closes]
    · next unclosed =>
      obtain ⟨offset, later, rfl⟩ := Option.map_eq_some_iff.mp found
      rw [if_neg unclosed, ih later, Option.map_some]

/-- A closing bracket is found again with any text in front of and behind what is read. -/
theorem closingOf?_around {closing : Nat} (found : text.closingOf? position = some closing) :
    (front ++ text ++ behind).closingOf? (position + front.length) =
      some (closing + front.length) := by
  rw [closingOf?] at found ⊢
  have inside : position ≤ text.length := by
    by_contra beyond
    rw [List.drop_eq_nil_of_le (by omega)] at found
    contradiction
  rw [drop_around front behind inside]
  cases shape : text.drop position with
  | nil => simp [shape] at found
  | cons b rest =>
    simp only [shape, List.cons_append] at found ⊢
    split at found
    · next opens =>
      obtain ⟨offset, closes, rfl⟩ := Option.map_eq_some_iff.mp found
      rw [if_pos opens, closingOffset?_append_of_some closes, Option.map_some]
      congr 1
      omega
    · contradiction

/-- Blanks that end in a text end there in a larger one. -/
theorem skipBlanks_around (stops : text.skipBlanks position < text.length) :
    (front ++ text ++ behind).skipBlanks (position + front.length) =
      text.skipBlanks position + front.length := by
  rw [skipBlanks] at stops
  have inside : position ≤ text.length := by omega
  have short : ((text.drop position).takeWhile Byte.isBlank).length ≠
      (text.drop position).length := by
    rw [List.length_drop]
    omega
  rw [skipBlanks, skipBlanks, drop_around front behind inside, List.takeWhile_append,
    if_neg short, List.length_append, List.length_append]
  omega

theorem expressionLength_le (depth : Nat) (text : Text) :
    expressionLength depth text ≤ text.length := by
  induction text generalizing depth with
  | nil => exact Nat.le_refl 0
  | cons b rest ih =>
    rw [expressionLength, List.length_cons]
    split
    · omega
    · exact Nat.succ_le_succ (ih _)

theorem slice_expressionEnd (inside : position ≤ text.length) :
    text.slice ⟨position, text.expressionEnd position⟩ =
      (text.drop position).take (expressionLength 0 (text.drop position)) := by
  have short := expressionLength_le 0 (text.drop position)
  rw [List.length_drop] at short
  rw [slice, expressionEnd, Nat.min_eq_right (by omega), List.drop_take, Nat.add_sub_cancel_left]

/-- The expression that a longer text begins with may go on behind the text. -/
theorem take_expressionLength_append (depth : Nat) (text behind : Text) :
    ∃ count, (text ++ behind).take (expressionLength depth (text ++ behind)) =
      text.take (expressionLength depth text) ++ behind.take count := by
  induction text generalizing depth with
  | nil => exact ⟨expressionLength depth behind, rfl⟩
  | cons b rest ih =>
    rw [List.cons_append, expressionLength, expressionLength]
    split
    · exact ⟨0, by simp⟩
    · obtain ⟨count, split⟩ := ih (depthStep depth b)
      exact ⟨count, by simp [split]⟩

end Text

namespace FunctionBody

variable {front text behind : Text} {position : Nat} {body : Span}

/-- A braced body is found again, moved, with any text around what is read. -/
theorem bracedAt?_around (found : bracedAt? text position = some body) :
    bracedAt? (front ++ text ++ behind) (position + front.length) =
      some (body.shift front.length) := by
  rw [bracedAt?] at found ⊢
  split at found
  · next opens =>
    have inside := (List.getElem?_eq_some_iff.mp opens).1
    obtain ⟨closing, closes, rfl⟩ := Option.map_eq_some_iff.mp found
    rw [getElem?_around front behind inside, if_pos opens, closingOf?_around closes,
      Option.map_some]
    simp only [Span.shift, Nat.add_right_comm]
  · contradiction

theorem outer_returnType {frame : Frame} (closing : frame.closing = some '{') :
    Outer frame id returnType returnType := by
  have outside {property : Char → Prop} (holds : property '{') : ∀ c ∈ frame.closing, property c :=
    Frame.forall_closing closing holds
  exact Outer.bind (Inner.literal [':'] (outside (by decide))) fun _ =>
    Outer.bind (Inner.run (outside (by decide))) fun _ =>
      Outer.bind (Inner.character (outside (by decide))) fun _ =>
        Outer.bind (Inner.run (outside (by decide))) fun _ =>
          Outer.literal (Frame.ends_singleton closing)

private theorem matchAt?_returnType_append {found : Match Unit} (string : IsString text)
    (behindString : IsString behind) (reads : returnType.matchAt? (.ofText text) = some found) :
    returnType.matchAt? (.ofText (text ++ behind)) = some found := by
  obtain ⟨characters, rfl⟩ := string
  obtain ⟨others, rfl⟩ := behindString
  let frame := Frame.closedBy [] others '{'
  have outer : Outer frame id returnType returnType := outer_returnType rfl
  rw [Cursor.ofText_encode] at reads
  obtain ⟨body, c, after, closing, shape, -⟩ := outer.exists_of_matchAt? reads
  have closes : frame.Closes characters := by
    rw [shape]
    exact Frame.forall_closing closing (by simp)
  have there := outer.matchAt?_eq [] closes
  rw [← encode_append, Cursor.ofText_encode]
  rw [List.append_nil, reads] at there
  exact there

/-- The body behind some parameters is the same in a larger text. -/
theorem afterParameters?_around (string : IsString text) (behindString : IsString behind)
    (found : afterParameters? text position = some body) :
    afterParameters? (front ++ text ++ behind) (position + front.length) =
      some (body.shift front.length) := by
  obtain ⟨closing, closes, found⟩ := Option.bind_eq_some_iff.mp found
  dsimp only at found
  have next : text.skipBlanks (closing + 1) < text.length := by
    by_contra beyond
    have nothing : text[text.skipBlanks (closing + 1)]? = none :=
      List.getElem?_eq_none (Nat.le_of_not_lt beyond)
    simp [nothing, bracedAt?] at found
  rw [afterParameters?, closingOf?_around closes]
  simp only [Option.bind_eq_bind, Option.bind_some]
  rw [Nat.add_right_comm, skipBlanks_around next, getElem?_around front behind next]
  split at found
  · next colon =>
    obtain ⟨type, reads, braced⟩ := Option.bind_eq_some_iff.mp found
    have restString : IsString (text.drop (text.skipBlanks (closing + 1))) := by
      have begins := (isBoundary_of_ascii string colon (by decide)).1
      have rest := (begins.isWhole (isBoundary_length text) next.le).isString string
      rwa [slice, List.take_length] at rest
    obtain ⟨_, -, span, forward⟩ := exists_of_matchAt? reads
    have positive : 1 ≤ type.span.stop := by
      rw [span]
      exact Nat.one_le_of_lt forward
    have brace : text.skipBlanks (closing + 1) + front.length + type.span.stop - 1 =
        text.skipBlanks (closing + 1) + type.span.stop - 1 + front.length := by omega
    rw [if_pos colon, drop_around front behind next.le,
      matchAt?_returnType_append restString behindString reads, Option.bind_some, brace]
    exact bracedAt?_around braced
  · next plain =>
    rw [if_neg plain]
    exact bracedAt?_around found

/-- Whether a body in a larger text is a body in a text, or begins with it and goes on on a new
line. An empty body may become any other. -/
def Continues (text whole : Text) (body larger : Span) : Prop :=
  text.slice body = [] ∨ ∃ tail, BeginsLine tail ∧ whole.slice larger = text.slice body ++ tail

theorem continues_shift (inside : body.stop ≤ text.length) :
    Continues text (front ++ text ++ behind) body (body.shift front.length) := by
  refine .inr ⟨[], by simp [BeginsLine], ?_⟩
  rw [slice_around inside, List.append_nil]

theorem stop_le_of_bracedAt? (found : bracedAt? text position = some body) :
    body.stop ≤ text.length := by
  rw [bracedAt?] at found
  split at found
  · obtain ⟨closing, closes, rfl⟩ := Option.map_eq_some_iff.mp found
    obtain ⟨-, b, here, -⟩ := exists_of_closingOf? closes
    exact (List.getElem?_eq_some_iff.mp here).1.le
  · contradiction

theorem start_of_ofArrow? {function : FunctionBody}
    (found : ofArrow? text position = some function) : function.start = position := by
  rw [ofArrow?] at found
  split at found
  · obtain ⟨body, -, rfl⟩ := Option.map_eq_some_iff.mp found
    rfl
  · obtain rfl := Option.some.inj found
    rfl

/-- Nothing but blanks and a brace stands between an arrow and its body. -/
theorem start_le_of_ofArrow? {function : FunctionBody}
    (found : ofArrow? text position = some function) :
    function.body.start ≤ text.skipBlanks (position + 2) + 1 := by
  rw [ofArrow?] at found
  split at found
  · obtain ⟨body, braced, rfl⟩ := Option.map_eq_some_iff.mp found
    rw [bracedAt?] at braced
    split at braced
    · obtain ⟨closing, -, rfl⟩ := Option.map_eq_some_iff.mp braced
      exact le_rfl
    · contradiction
  · obtain rfl := Option.some.inj found
    exact Nat.le_succ _

private theorem ofArrow?_around_inside {function : FunctionBody} (line : BeginsLine behind)
    (stops : text.skipBlanks (position + 2) < text.length)
    (found : ofArrow? text position = some function) :
    ∃ larger, ofArrow? (front ++ text ++ behind) (position + front.length) = some larger ∧
      Continues text (front ++ text ++ behind) function.body larger.body := by
  have next : (front ++ text ++ behind).skipBlanks (position + 2 + front.length) =
      text.skipBlanks (position + 2) + front.length := skipBlanks_around stops
  rw [ofArrow?, Nat.add_right_comm, next, getElem?_around front behind stops]
  rw [ofArrow?] at found
  split at found
  · next brace =>
    obtain ⟨body, braced, rfl⟩ := Option.map_eq_some_iff.mp found
    rw [if_pos brace, bracedAt?_around braced]
    exact ⟨_, rfl, continues_shift (stop_le_of_bracedAt? braced)⟩
  · next plain =>
    obtain rfl := Option.some.inj found
    rw [if_neg plain]
    refine ⟨_, rfl, .inr ?_⟩
    have reached : text.skipBlanks (position + 2) + front.length ≤
        (front ++ text ++ behind).length := by
      rw [List.length_append, List.length_append]
      omega
    obtain ⟨count, goesOn⟩ :=
      take_expressionLength_append 0 (text.drop (text.skipBlanks (position + 2))) behind
    refine ⟨behind.take count, fun b first => line b ?_, ?_⟩
    · rw [List.head?_take] at first
      split at first
      · contradiction
      · exact first
    · rw [slice_expressionEnd reached, drop_around front behind stops.le, goesOn,
        slice_expressionEnd stops.le]

/-- An arrow function that begins inside a text has a body in a larger text that continues its body,
unless the text ends with its arrow and a brace behind it that is never closed. -/
theorem ofArrow?_around (front : Text) {function : FunctionBody} (line : BeginsLine behind)
    (found : ofArrow? text position = some function) :
    (∃ larger, ofArrow? (front ++ text ++ behind) (position + front.length) = some larger ∧
        Continues text (front ++ text ++ behind) function.body larger.body) ∨
      text.skipBlanks (position + 2) = text.length ∧ text.slice function.body = [] ∧
        ofArrow? (front ++ text ++ behind) (position + front.length) = none := by
  rcases Nat.lt_or_ge (text.skipBlanks (position + 2)) text.length with stops | ends
  · exact .inl (ofArrow?_around_inside line stops found)
  · have ended : text.skipBlanks (position + 2) = text.length :=
      Nat.le_antisymm (Nat.min_le_left ..) ends
    have empty : text.slice function.body = [] := by
      rw [ofArrow?, ended, List.getElem?_eq_none (Nat.le_refl _), if_neg (by simp)] at found
      obtain rfl := Option.some.inj found
      rw [slice]
      exact List.drop_eq_nil_of_le (List.length_take_le' ..)
    cases larger : ofArrow? (front ++ text ++ behind) (position + front.length) with
    | none => exact .inr ⟨ended, empty, rfl⟩
    | some function => exact .inl ⟨function, rfl, .inl empty⟩

end FunctionBody

end BareComponent
