import BareComponent.Proofs.Mask.Glyph
import Mathlib.Data.List.Forall2

/-! # What a mask keeps in place

A mask has one byte in the place of each byte of a text: the byte itself, or a space where it hides
one that is no newline. Over a string it keeps or hides each character as a whole, also where an
escape takes the first byte of one, so that the mask is a string again and the string never has to
stand for its own mask.
-/

namespace BareComponent

/-- Whether a mask may have one byte in the place of another. -/
def Byte.Masks (b masked : UInt8) : Prop := masked = b ∨ b ≠ newline ∧ masked = space

/-- Whether a mask may have a piece of text in the place of a character: its bytes, or as many
hidden ones. -/
def MasksWhole (c : Char) (piece : Text) : Prop :=
  piece = String.utf8EncodeChar c ∨ piece = Text.blanked (String.utf8EncodeChar c)

namespace Scanner

/-- What the scanner shows of a byte is the byte itself or a space, and a line end stays. -/
theorem masks_shown (state : State) (b : UInt8) (next : Option UInt8) :
    Byte.Masks b (shown state b next) := by
  unfold Byte.Masks shown Byte.blanked
  grind

/-- A scan shows or hides each byte in its place. -/
theorem forall₂_masks_scan (state : State) (next : Option UInt8) (text : Text) :
    List.Forall₂ Byte.Masks text (scan state next text) := by
  induction text generalizing state with
  | nil => exact .nil
  | cons b rest ih => exact .cons (masks_shown ..) (ih _)

/-- What a mask shows beside spaces stands in the text. -/
theorem mem_of_mem_scan {state : State} {next : Option UInt8} {text : Text} {b : UInt8}
    (member : b ∈ scan state next text) (shown : b ≠ Byte.space) : b ∈ text := by
  have bytes := forall₂_masks_scan state next text
  obtain ⟨offset, inside, rfl⟩ := List.mem_iff_getElem.mp member
  rcases bytes.get (bytes.length_eq ▸ inside) inside with same | ⟨-, blank⟩
  · rw [List.get_eq_getElem] at same
    exact same ▸ List.getElem_mem _
  · exact absurd blank shown

end Scanner

namespace Text

/-- A mask keeps each byte or blanks it out. -/
theorem forall₂_masks_mask (text : Text) : List.Forall₂ Byte.Masks text text.mask := by
  rw [mask_eq_scan]
  exact Scanner.forall₂_masks_scan ..

/-- Where bytes are masked one by one, newlines stay where they are. -/
theorem getElem?_eq_newline_iff {text masked : Text} (bytes : List.Forall₂ Byte.Masks text masked)
    (offset : Nat) : masked[offset]? = some Byte.newline ↔ text[offset]? = some Byte.newline := by
  induction bytes generalizing offset with
  | nil => rfl
  | @cons b m _ _ here _ ih =>
    cases offset with
    | succ offset => exact ih offset
    | zero =>
      have same : m = Byte.newline ↔ b = Byte.newline := by
        rcases here with rfl | ⟨other, rfl⟩
        · rfl
        · exact ⟨fun blank => absurd blank (by decide), fun lineEnd => absurd lineEnd other⟩
      simpa using same

/-- The mask of a string, as a string. If its bytes were no UTF-8, the string would stand for its
own mask. -/
def maskString (source : String) : String := (toString? (mask source)).getD source

/-- The mask of a string is a string. -/
theorem toString?_mask (source : String) :
    toString? (mask source) = some (maskString source) ∧
      ofString (maskString source) = mask source := by
  obtain ⟨glyphs, -, masked⟩ := exists_glyphs source.toList
  rw [← ofString_eq, Glyph.mask_eq_encode] at masked
  rw [maskString, masked, toString?_encode, ofString_eq]
  simp

/-- The mask treats the bytes of a character alike. -/
theorem exists_whole (characters : List Char) : ∃ pieces : List Text,
    (encode characters).mask = pieces.flatten ∧ List.Forall₂ MasksWhole characters pieces := by
  obtain ⟨glyphs, spelled, masked⟩ := exists_glyphs characters
  rw [Glyph.text_eq_encode] at spelled
  obtain rfl := encode_injective spelled
  refine ⟨glyphs.map Glyph.shown, by rw [masked, Glyph.mask, List.flatMap_def], ?_⟩
  rw [List.forall₂_map_left_iff, List.forall₂_map_right_iff, List.forall₂_same]
  intro glyph _
  unfold MasksWhole Glyph.shown Glyph.bytes
  split
  · exact .inl rfl
  · exact .inr rfl

/-- A mask is as long as its string and hides bytes by spaces only, newlines excepted; it takes
each character as a whole and is a string itself. -/
theorem mask_keeps_layout (source : String) :
    (mask source).length = (ofString source).length ∧
    List.Forall₂ Byte.Masks (ofString source) (mask source) ∧
    (∀ offset : Nat, (mask source)[offset]? = some Byte.newline ↔
      (ofString source)[offset]? = some Byte.newline) ∧
    (∃ pieces : List Text, mask source = pieces.flatten ∧
      List.Forall₂ MasksWhole source.toList pieces) ∧
    toString? (mask source) = some (maskString source) ∧
    ofString (maskString source) = mask source := by
  have bytes := forall₂_masks_mask (ofString source)
  exact ⟨mask_length _, bytes, getElem?_eq_newline_iff bytes, exists_whole source.toList,
    toString?_mask source⟩

end Text

end BareComponent
