import BareComponent.Json.Printer
import BareComponent.Json.Reader
import BareComponent.Proofs.Mask.Lines

/-! # A printed string

A byte is printed between quotes as it is or as a backslash with what names the byte. Either way a
reader gets the byte back, and a scanner that stands inside the string hides what is printed and
stays inside, for each backslash claims the byte behind it. So the string is read back as the text
that it was printed from, and it is masked as one string from its first quote to its last.
-/

namespace BareComponent

open Reader

/-- A hexadecimal digit is read back. -/
theorem hexValue?_ofHexDigit : ∀ digit < 16, hexValue? (Byte.ofHexDigit digit) = some digit := by
  decide

/-- Whether a byte is ASCII and says nothing to a scanner that stands inside a string. -/
def Byte.IsPlain (b : UInt8) : Prop :=
  b.toNat < 0x80 ∧ b ≠ doubleQuote ∧ b ≠ backslash ∧ b ≠ newline

instance (b : UInt8) : Decidable (Byte.IsPlain b) :=
  inferInstanceAs (Decidable (_ ∧ _ ∧ _ ∧ _))

private theorem isPlain_ofHexDigit : ∀ digit < 16, Byte.IsPlain (Byte.ofHexDigit digit) := by
  decide

/-- The escape of a byte: what is printed behind a backslash in its place. -/
structure Escapes (b : UInt8) (name : UInt8) (digits : Text) : Prop where
  printed : Byte.quoted b = Byte.backslash :: name :: digits
  ascii : b.toNat < 0x80
  nameAscii : name.toNat < 0x80 ∧ name ≠ Byte.newline
  digitsPlain : ∀ d ∈ digits, Byte.IsPlain d
  read : ∀ rest, escaped true (name :: digits ++ rest) = some ([b], rest)

private theorem escapes_control {b : UInt8} (control : b < 0x20)
    (printed : Byte.quoted b = Text.ofString "\\u00" ++
      [Byte.ofHexDigit (b.toNat / 16), Byte.ofHexDigit (b.toNat % 16)]) :
    Escapes b 0x75 [Byte.zero, Byte.zero, Byte.ofHexDigit (b.toNat / 16),
      Byte.ofHexDigit (b.toNat % 16)] := by
  have below : b.toNat < 0x20 := UInt8.lt_iff_toNat_lt.mp control
  have high : b.toNat / 16 < 16 := by omega
  have low : b.toNat % 16 < 16 := by omega
  refine ⟨printed, by omega, by decide, ?_, fun rest => ?_⟩
  · have zero : Byte.IsPlain Byte.zero := by decide
    simp [zero, isPlain_ofHexDigit _ high, isPlain_ofHexDigit _ low]
  · have unit : hexUnit ([Byte.zero, Byte.zero, Byte.ofHexDigit (b.toNat / 16),
        Byte.ofHexDigit (b.toNat % 16)] ++ rest) = some (b.toNat, rest) := by
      have value : b.toNat / 16 * 16 + b.toNat % 16 = b.toNat := Nat.div_add_mod' _ _
      have zero : hexValue? Byte.zero = some 0 := by decide
      simp [hexUnit, zero, hexValue?_ofHexDigit _ high, hexValue?_ofHexDigit _ low, value]
    have whole : isLeadingHalf b.toNat = false ∧ isTrailingHalf b.toNat = false := by
      simp [isLeadingHalf, isTrailingHalf]
      omega
    have code : Reader.encode b.toNat = [b] := by
      have valid : b.toNat.isValidChar := .inl (by omega)
      have same : (Char.ofNat b.toNat).toNat = b.toNat := by
        rw [Char.ofNat, dif_pos valid]
        rfl
      rw [Reader.encode, Text.encodeChar_of_ascii (by omega), same]
      simp
    have named (text : Text) : escaped true (0x75 :: text) = numberedCharacter true text := rfl
    rw [List.cons_append, named, numberedCharacter, unit]
    simp [whole, code]

/-- A byte is printed as it is or by its escape. -/
theorem quoted_or_escapes (b : UInt8) :
    (Byte.quoted b = [b] ∧ 0x20 ≤ b ∧ b ≠ Byte.doubleQuote ∧ b ≠ Byte.backslash) ∨
      ∃ name digits, Escapes b name digits := by
  by_cases itself : b = Byte.doubleQuote ∨ b = Byte.backslash
  · right
    rcases itself with rfl | rfl
    · exact ⟨Byte.doubleQuote, [], rfl, by decide, by decide, by simp, fun _ => rfl⟩
    · exact ⟨Byte.backslash, [], rfl, by decide, by decide, by simp, fun _ => rfl⟩
  by_cases short : b = 0x08 ∨ b = Byte.tab ∨ b = Byte.newline ∨ b = Byte.formFeed ∨
      b = Byte.carriageReturn
  · right
    rcases short with rfl | rfl | rfl | rfl | rfl
    · exact ⟨0x62, [], rfl, by decide, by decide, by simp, fun _ => rfl⟩
    · exact ⟨0x74, [], rfl, by decide, by decide, by simp, fun _ => rfl⟩
    · exact ⟨0x6e, [], rfl, by decide, by decide, by simp, fun _ => rfl⟩
    · exact ⟨0x66, [], rfl, by decide, by decide, by simp, fun _ => rfl⟩
    · exact ⟨0x72, [], rfl, by decide, by decide, by simp, fun _ => rfl⟩
  simp only [not_or] at short
  by_cases control : b < 0x20
  · refine .inr ⟨_, _, escapes_control control ?_⟩
    simp only [Byte.quoted, itself, short, control, if_false, if_true]
  · refine .inl ⟨?_, UInt8.not_lt.mp control, not_or.mp itself⟩
    simp only [Byte.quoted, itself, short, control, if_false]

section Reading

private theorem stringRest_quoted (b : UInt8) (limit : Nat) (rest : Text) :
    stringRest true (limit + 1) (Byte.quoted b ++ rest) =
      (stringRest true limit rest).map fun (text, rest) => (b :: text, rest) := by
  rcases quoted_or_escapes b with ⟨printed, visible, quote, backslash⟩ | ⟨name, digits, escapes⟩
  · rw [printed, List.singleton_append, stringRest, if_neg quote, if_neg backslash,
      if_neg (UInt8.not_lt.mpr visible)]
    cases stringRest true limit rest <;> rfl
  · have quote : Byte.backslash ≠ Byte.doubleQuote := by decide
    rw [escapes.printed, List.cons_append, stringRest, if_neg quote, if_pos rfl, escapes.read]
    simp only [Option.bind_eq_bind, Option.bind_some]
    cases stringRest true limit rest <;> rfl

private theorem stringRest_flatMap (text rest : Text) {limit : Nat}
    (enough : text.length < limit) :
    stringRest true limit (text.flatMap Byte.quoted ++ Byte.doubleQuote :: rest) =
      some (text, rest) := by
  induction text generalizing limit with
  | nil =>
    obtain ⟨limit, rfl⟩ := Nat.exists_eq_add_one.mpr enough
    rfl
  | cons b text ih =>
    obtain ⟨limit, rfl⟩ : ∃ smaller, limit = smaller + 1 := Nat.exists_eq_add_one.mpr (by omega)
    rw [List.flatMap_cons, List.append_assoc, stringRest_quoted, ih (Nat.lt_of_succ_lt_succ enough)]
    rfl

private theorem length_le_flatMap_quoted (text : Text) :
    text.length ≤ (text.flatMap Byte.quoted).length := by
  induction text with
  | nil => exact Nat.le_refl _
  | cons b text ih =>
    have positive : 1 ≤ (Byte.quoted b).length := by
      rcases quoted_or_escapes b with ⟨printed, -⟩ | ⟨name, digits, escapes⟩
      · simp [printed]
      · simp [escapes.printed]
    rw [List.flatMap_cons, List.length_append, List.length_cons]
    omega

/-- Behind its opening quote a printed string is read as the text that it was printed from,
whatever follows it. -/
theorem stringRest_quoted_append (text rest : Text) :
    stringRest true (text.flatMap Byte.quoted ++ Byte.doubleQuote :: rest).length
      (text.flatMap Byte.quoted ++ Byte.doubleQuote :: rest) = some (text, rest) := by
  refine stringRest_flatMap text rest ?_
  have := length_le_flatMap_quoted text
  rw [List.length_append, List.length_cons]
  omega

/-- A printed string is read as the text that it was printed from, whatever follows it. -/
theorem string_quoted_append (text rest : Text) :
    Reader.string true (text.quoted ++ rest) = some (text, rest) := by
  have opened : token? Byte.doubleQuote (text.quoted ++ rest) =
      some (text.flatMap Byte.quoted ++ Byte.doubleQuote :: rest) := by
    rw [Text.quoted, List.cons_append, List.cons_append, List.append_assoc]
    rfl
  rw [Reader.string, opened]
  exact stringRest_quoted_append text rest

/-- A printed string is read back as the text that it was printed from. -/
theorem Json.ofText?_quoted (text : Text) :
    Json.ofText? Json.textReader text.quoted = some text := by
  have read := string_quoted_append text []
  rw [List.append_nil] at read
  rw [Json.ofText?, Json.textReader, read]
  rfl

end Reading

namespace Scanner

/-- What is printed between quotes is hidden. -/
theorem hides_quoted (text : Text) : Hides .double (text.flatMap Byte.quoted) := by
  induction text with
  | nil => exact .nil
  | cons b text ih =>
    rw [List.flatMap_cons]
    refine Hides.append ?_ ih
    rcases quoted_or_escapes b with ⟨printed, visible, quote, backslash⟩ | ⟨name, digits, escapes⟩
    · have lineEnd : b ≠ Byte.newline := by
        rintro rfl
        exact absurd visible (by decide)
      rw [printed]
      exact hides_byte quote backslash lineEnd
    · rw [escapes.printed]
      exact (hides_escape escapes.nameAscii.2).append (hides_plain fun d digit =>
        (escapes.digitsPlain d digit).2)

/-- A printed string is masked as one string, whatever text it was printed from. -/
theorem settles_printed (text : Text) : Settles text.quoted
    (Byte.doubleQuote :: List.replicate (text.flatMap Byte.quoted).length Byte.space ++
      [Byte.doubleQuote]) :=
  (hides_quoted text).settles

end Scanner

namespace Text

/-- No line ends inside a printed string. -/
theorem newline_not_mem_quoted (text : Text) : Byte.newline ∉ text.quoted := by
  intro member
  have quote : Byte.newline ≠ Byte.doubleQuote := by decide
  simp only [quoted, List.mem_append, List.mem_cons, quote, false_or, or_false,
    List.not_mem_nil, List.mem_flatMap] at member
  obtain ⟨b, -, inside⟩ := member
  rcases quoted_or_escapes b with ⟨printed, visible, -⟩ | ⟨name, digits, escapes⟩
  · rw [printed, List.mem_singleton] at inside
    exact absurd (inside ▸ visible) (by decide)
  · rw [escapes.printed, List.mem_cons, List.mem_cons] at inside
    rcases inside with slash | named | digit
    · exact absurd slash (by decide)
    · exact escapes.nameAscii.2 named.symm
    · exact (escapes.digitsPlain _ digit).2.2.2 rfl

private theorem low_of_mem_quoted {b d : UInt8} (ascii : b.toNat < 0x80)
    (member : d ∈ Byte.quoted b) : d.toNat < 0x80 := by
  rcases quoted_or_escapes b with ⟨printed, -⟩ | ⟨name, digits, escapes⟩
  · rw [printed, List.mem_singleton] at member
    exact member ▸ ascii
  · rw [escapes.printed, List.mem_cons, List.mem_cons] at member
    rcases member with rfl | rfl | digit
    · decide
    · exact escapes.nameAscii.1
    · exact (escapes.digitsPlain d digit).1

private theorem quoted_high {b : UInt8} (high : ¬b.toNat < 0x80) : Byte.quoted b = [b] := by
  rcases quoted_or_escapes b with ⟨printed, -⟩ | ⟨name, digits, escapes⟩
  · exact printed
  · exact absurd escapes.ascii high

/-- Printing a string keeps its characters whole. -/
theorem isString_quoted {text : Text} (string : IsString text) : IsString text.quoted := by
  obtain ⟨characters, rfl⟩ := string
  have quote : IsString [Byte.doubleQuote] := isString_ofString "\""
  have inside : IsString ((encode characters).flatMap Byte.quoted) := by
    induction characters with
    | nil => exact ⟨[], rfl⟩
    | cons c characters ih =>
      rw [encode_cons, List.flatMap_append]
      refine IsString.append ?_ ih
      by_cases ascii : c.toNat < 0x80
      · refine isString_of_low fun d member => ?_
        rw [encodeChar_of_ascii ascii, List.flatMap_singleton] at member
        exact low_of_mem_quoted (by simp; omega) member
      · have kept : (String.utf8EncodeChar c).flatMap Byte.quoted = String.utf8EncodeChar c := by
          rw [List.flatMap_congr fun b member => quoted_high fun low =>
            ascii ((encodeChar_eq_singleton member low).2 ▸ low)]
          simp
        exact ⟨[c], by rw [kept]; simp⟩
  exact (quote.append inside).append quote

end Text

end BareComponent
