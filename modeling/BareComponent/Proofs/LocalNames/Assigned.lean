import BareComponent.Proofs.Checked.LocalNames
import BareComponent.Proofs.Pattern.Leftmost

/-! # The names assigned in a longer body

A declaration and an assignment are found through their equals sign. If a body goes on on a new
line, then what is assigned in it is assigned in the longer body.
-/

namespace BareComponent.LocalNames

open Text Pattern Checked

section Patterns

variable {frame : Frame} (closing : frame.closing = some '=')
include closing

private theorem outer_equals (name : Span) :
    Outer frame (Span.shift · frame.offset)
      (do Pattern.blanks; Pattern.literal "="; pure (name.shift frame.offset))
      (do Pattern.blanks; Pattern.literal "="; pure name) :=
  Outer.bind (Inner.run (Frame.forall_closing closing (by decide))) fun _ =>
    (Outer.literal (Frame.ends_singleton closing)).andPure _ name

private theorem inner_name : Inner frame id Pattern.name Pattern.name :=
  Inner.name (Frame.forall_closing closing (by decide))

theorem outer_declaration (seam : isWord frame.front.getLast? = false) :
    Outer frame (Span.shift · frame.offset) declaration declaration := by
  have keywords : ∀ needle ∈ (["var", "let", "const"] : List Text),
      ∃ characters, needle = encode characters ∧ frame.Avoids characters := by
    have apart : ∀ characters ∈ [['v', 'a', 'r'], ['l', 'e', 't'], ['c', 'o', 'n', 's', 't']],
        '=' ∉ characters := by decide
    intro needle member
    obtain ⟨characters, inside, rfl⟩ : ∃ characters ∈
        [['v', 'a', 'r'], ['l', 'e', 't'], ['c', 'o', 'n', 's', 't']],
          encode characters = needle := List.mem_map.mp member
    exact ⟨characters, rfl, Frame.forall_closing closing (apart characters inside)⟩
  exact Outer.bind (Inner.wordBoundary seam) fun _ => Outer.bind (Inner.oneOf keywords) fun _ =>
    Outer.bind (Inner.run1 (Frame.forall_closing closing (by decide))) fun _ =>
      Outer.bind (inner_name closing).spanned fun name => outer_equals closing name

theorem outer_assignment : Outer frame (Span.shift · frame.offset) assignment assignment :=
  Outer.bind (inner_name closing).spanned fun name => outer_equals closing name

end Patterns

/-- Whether a text is empty or begins with a newline. -/
def BeginsLine (tail : Text) : Prop := ∀ b ∈ tail.head?, b = Byte.newline

variable {body tail : Text}

private theorem isAssignment_append (next : BeginsLine tail) {span : Span}
    (whole : body.IsWhole span) (assigns : isAssignment body span = true) :
    isAssignment (body ++ tail) span = true := by
  have inside := whole.ordered.trans whole.inside
  have behind (here : (body ++ tail)[span.stop]? = some Byte.equals) :
      body[span.stop]? = some Byte.equals := by
    rcases Nat.lt_or_ge span.stop body.length with short | reached
    · rwa [List.getElem?_append_left short] at here
    · obtain ended := Nat.le_antisymm whole.inside reached
      rw [ended, List.getElem?_append_right (Nat.le_refl _), Nat.sub_self,
        ← List.head?_eq_getElem?] at here
      exact absurd (next _ here) (by decide)
  simp only [isAssignment, Bool.and_eq_true, bne_iff_ne] at assigns ⊢
  rw [List.take_append_of_le_length inside]
  exact ⟨assigns.1, fun here => assigns.2 (behind here)⟩

/-- What is assigned in a body is assigned if the body goes on on a new line. -/
theorem mem_assigned_append (string : IsString body) (tailString : IsString tail)
    (next : BeginsLine tail) {name : Text} (member : name ∈ assigned body) :
    name ∈ assigned (body ++ tail) := by
  obtain ⟨characters, rfl⟩ := string
  obtain ⟨others, rfl⟩ := tailString
  let frame := Frame.closedBy [] others '='
  have stays {pattern : Pattern Span} {found : Match Span}
      (outer : Outer frame (Span.shift · frame.offset) pattern pattern)
      (inside : found ∈ pattern.search (encode characters)) :
      found ∈ pattern.search (encode characters ++ encode others) := by
    rw [← encode_append]
    exact outer.mem_search_append rfl inside
  rcases List.mem_append.mp member with declared | isAssigned
  · obtain ⟨found, inside, rfl⟩ := List.mem_map.mp declared
    rw [← slice_append_of_le (ensures_declaration.search inside).1.inside (encode others)]
    exact List.mem_append_left _ (List.mem_map_of_mem (stays (outer_declaration rfl rfl) inside))
  · obtain ⟨found, kept, rfl⟩ := List.mem_map.mp isAssigned
    obtain ⟨inside, assigns⟩ := List.mem_filter.mp kept
    obtain ⟨name, whole, -⟩ := ensures_assignment.search inside
    rw [← slice_append_of_le name.inside (encode others)]
    exact List.mem_append_right _ (List.mem_map_of_mem (List.mem_filter.mpr
      ⟨stays (outer_assignment rfl) inside, isAssignment_append next whole assigns⟩))

end BareComponent.LocalNames
