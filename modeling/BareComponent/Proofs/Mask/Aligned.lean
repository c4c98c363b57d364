import BareComponent.Proofs.Mask.Layout
import BareComponent.Proofs.Text.Boundary

/-! # Cutting a string along its mask

A mask may show the places of bytes inside a hidden character, so not every boundary of the mask is
one of the string. Beside an ASCII byte that the mask shows there are boundaries of both. What is
cut out between such places is a string with a mask in place again.
-/

namespace BareComponent

/-- Whether a byte is ASCII and no space, so that it stands for itself in a mask. -/
def Byte.IsShown (b : UInt8) : Prop := b.toNat < 0x80 ∧ b ≠ space

namespace Text

/-- Whether an offset into a mask is an end of it or stands beside a byte that is shown. -/
def IsFirm (masked : Text) (offset : Nat) : Prop :=
  offset = 0 ∨ offset = masked.length ∨ (∃ b, masked[offset]? = some b ∧ Byte.IsShown b) ∨
    ∃ before b, offset = before + 1 ∧ masked[before]? = some b ∧ Byte.IsShown b

/-- A string and a string that has a mask of each byte in its place. -/
structure Aligned (text masked : Text) : Prop where
  string : IsString text
  maskIsString : IsString masked
  bytes : List.Forall₂ Byte.Masks text masked

variable {text masked : Text} {start stop offset : Nat} {b : UInt8}

theorem isFirm_of_getElem? (here : masked[offset]? = some b) (shown : Byte.IsShown b) :
    masked.IsFirm offset ∧ masked.IsFirm (offset + 1) :=
  ⟨.inr (.inr (.inl ⟨b, here, shown⟩)), .inr (.inr (.inr ⟨offset, b, rfl, here, shown⟩))⟩

theorem isFirm_append (front behind : Text) (shown : Byte.IsShown b) :
    (front ++ b :: behind).IsFirm front.length ∧ (front ++ b :: behind).IsFirm (front.length + 1) :=
  isFirm_of_getElem? (by simp) shown

/-- A string is aligned with its mask. -/
theorem IsString.aligned (string : IsString text) : Aligned text text.mask := by
  obtain ⟨characters, rfl⟩ := string
  obtain ⟨glyphs, -, masked⟩ := exists_glyphs characters
  exact ⟨⟨characters, rfl⟩, ⟨_, masked.trans (Glyph.mask_eq_encode glyphs)⟩,
    forall₂_masks_mask _⟩

/-- In front of a character that the mask shows and that is no blank, the string has a boundary. -/
theorem isBoundary_of_shown {characters before behind : List Char} {c : Char}
    (masked : (encode characters).mask = encode (before ++ c :: behind))
    (dark : c ≠ ' ' ∧ c ≠ '\n') : (encode characters).IsBoundary (encode before).length := by
  obtain ⟨glyphs, spelled, maskEq⟩ := exists_glyphs characters
  rw [maskEq, Glyph.mask_eq_encode] at masked
  obtain ⟨first, second, rfl, rfl⟩ :=
    Glyph.shownCharacters_eq_append_cons (encode_injective masked) dark
  rw [spelled, ← Glyph.mask_eq_encode, Glyph.length_mask, Glyph.text_eq_encode,
    Glyph.text_eq_encode, List.map_append]
  exact isBoundary_encode _ _

namespace Aligned

theorem length_eq (aligned : Aligned text masked) : text.length = masked.length :=
  aligned.bytes.length_eq

private theorem getElem?_eq (bytes : List.Forall₂ Byte.Masks text masked)
    (here : masked[offset]? = some b) (shown : Byte.IsShown b) : text[offset]? = some b := by
  induction bytes generalizing offset with
  | nil => simp at here
  | @cons c m text masked first _ ih =>
    cases offset with
    | succ offset => exact ih here
    | zero =>
      obtain rfl : m = b := Option.some.inj here
      rcases first with rfl | ⟨-, blank⟩
      · rfl
      · exact absurd blank shown.2

/-- What is firm in the mask is a boundary of both texts. -/
theorem isBoundary (aligned : Aligned text masked) (firm : masked.IsFirm offset) :
    text.IsBoundary offset ∧ masked.IsBoundary offset := by
  rcases firm with rfl | rfl | ⟨b, here, shown⟩ | ⟨before, b, rfl, here, shown⟩
  · exact ⟨isBoundary_zero text, isBoundary_zero masked⟩
  · exact ⟨aligned.length_eq ▸ isBoundary_length text, isBoundary_length masked⟩
  · have same := getElem?_eq aligned.bytes here shown
    exact ⟨(isBoundary_of_ascii aligned.string same shown.1).1,
      (isBoundary_of_ascii aligned.maskIsString here shown.1).1⟩
  · have same := getElem?_eq aligned.bytes here shown
    exact ⟨(isBoundary_of_ascii aligned.string same shown.1).2,
      (isBoundary_of_ascii aligned.maskIsString here shown.1).2⟩

/-- A span between firm places is cut along whole characters in both texts. -/
theorem isWhole (aligned : Aligned text masked) (starts : masked.IsFirm start)
    (stops : masked.IsFirm stop) (ordered : start ≤ stop) :
    text.IsWhole ⟨start, stop⟩ ∧ masked.IsWhole ⟨start, stop⟩ :=
  ⟨(aligned.isBoundary starts).1.isWhole (aligned.isBoundary stops).1 ordered,
    (aligned.isBoundary starts).2.isWhole (aligned.isBoundary stops).2 ordered⟩

/-- What is cut out of both between firm places is aligned. -/
theorem slice (aligned : Aligned text masked) (starts : masked.IsFirm start)
    (stops : masked.IsFirm stop) (ordered : start ≤ stop) :
    Aligned (text.slice ⟨start, stop⟩) (masked.slice ⟨start, stop⟩) := by
  obtain ⟨whole, maskWhole⟩ := aligned.isWhole starts stops ordered
  exact ⟨whole.isString aligned.string, maskWhole.isString aligned.maskIsString,
    List.forall₂_drop _ (List.forall₂_take _ aligned.bytes)⟩

end Aligned

end Text

end BareComponent
