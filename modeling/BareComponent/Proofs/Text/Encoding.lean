import BareComponent.Text.Blank
import Mathlib.Data.List.DropRight

/-! # Texts as sequences of characters

The UTF-8 bytes of a list of characters can be read back from either end one character at a time,
so that the byte functions on texts do to such a text what the list functions do to its
characters. An ASCII byte is always a character of its own, and a text may be cut in front of it
and behind it.
-/

namespace BareComponent

namespace Text

private theorem firstCharacter?_lead {lead : UInt8} {tail : Text} {code : Nat}
    (width : characterWidth lead = tail.length + 1)
    (completed : tail.foldl (fun code b => code * 64 + b.toNat % 64) (leadPayload lead) = code)
    (rest : Text) : firstCharacter? (lead :: tail ++ rest) = some (code, tail.length + 1) := by
  simp [firstCharacter?, width, completed]

private theorem continues_iff (b : UInt8) :
    Byte.continuesCharacter b = true ↔ 0x80 ≤ b.toNat ∧ b.toNat < 0xc0 := by
  simp [Byte.continuesCharacter, UInt8.le_iff_toNat_le, UInt8.lt_iff_toNat_lt]

private theorem width_one (lead : UInt8) (high : lead.toNat < 0x80) :
    characterWidth lead = 1 ∧ leadPayload lead = lead.toNat := by
  have first : lead < 0xc0 := by simp [UInt8.lt_iff_toNat_lt]; omega
  have width : characterWidth lead = 1 := by simp [characterWidth, first]
  exact ⟨width, by simp [leadPayload, width]⟩

private theorem width_two (lead : UInt8) (low : 0xc0 ≤ lead.toNat) (high : lead.toNat < 0xe0) :
    characterWidth lead = 2 ∧ leadPayload lead = lead.toNat % 0x20 := by
  have first : ¬ lead < 0xc0 := by simp [UInt8.lt_iff_toNat_lt]; omega
  have second : lead < 0xe0 := by simp [UInt8.lt_iff_toNat_lt]; omega
  have width : characterWidth lead = 2 := by simp [characterWidth, first, second]
  exact ⟨width, by simp [leadPayload, width]⟩

private theorem width_three (lead : UInt8) (low : 0xe0 ≤ lead.toNat) (high : lead.toNat < 0xf0) :
    characterWidth lead = 3 ∧ leadPayload lead = lead.toNat % 0x10 := by
  have first : ¬ lead < 0xc0 := by simp [UInt8.lt_iff_toNat_lt]; omega
  have second : ¬ lead < 0xe0 := by simp [UInt8.lt_iff_toNat_lt]; omega
  have third : lead < 0xf0 := by simp [UInt8.lt_iff_toNat_lt]; omega
  have width : characterWidth lead = 3 := by simp [characterWidth, first, second, third]
  exact ⟨width, by simp [leadPayload, width]⟩

private theorem width_four (lead : UInt8) (low : 0xf0 ≤ lead.toNat) :
    characterWidth lead = 4 ∧ leadPayload lead = lead.toNat % 0x08 := by
  have first : ¬ lead < 0xc0 := by simp [UInt8.lt_iff_toNat_lt]; omega
  have second : ¬ lead < 0xe0 := by simp [UInt8.lt_iff_toNat_lt]; omega
  have third : ¬ lead < 0xf0 := by simp [UInt8.lt_iff_toNat_lt]; omega
  have width : characterWidth lead = 4 := by simp [characterWidth, first, second, third]
  exact ⟨width, by simp [leadPayload, width]⟩

private theorem toNat_ofNat {n : Nat} (small : n < 256) : (UInt8.ofNat n).toNat = n :=
  Nat.mod_eq_of_lt small

/-- The bytes of a character: one that begins it and tells its width, and some that continue it. -/
theorem encodeChar_eq_cons (c : Char) : ∃ lead tail, String.utf8EncodeChar c = lead :: tail ∧
    Byte.continuesCharacter lead = false ∧ (∀ b ∈ tail, Byte.continuesCharacter b = true) ∧
    ∀ rest, firstCharacter? (lead :: tail ++ rest) = some (c.toNat, tail.length + 1) := by
  have top : c.val.toNat < 0x110000 := by rcases c.valid with low | high <;> omega
  simp only [← Bool.not_eq_true, continues_iff]
  unfold String.utf8EncodeChar Char.toNat
  generalize c.val.toNat = v at top ⊢
  dsimp only
  have last : (UInt8.ofNat (v % 64 + 0x80)).toNat = v % 64 + 0x80 := toNat_ofNat (by omega)
  have middle : (UInt8.ofNat (v / 64 % 64 + 0x80)).toNat = v / 64 % 64 + 0x80 :=
    toNat_ofNat (by omega)
  have upper : (UInt8.ofNat (v / 4096 % 64 + 0x80)).toNat = v / 4096 % 64 + 0x80 :=
    toNat_ofNat (by omega)
  split
  · have lead := toNat_ofNat (n := v) (by omega)
    obtain ⟨width, payload⟩ := width_one (UInt8.ofNat v) (by omega)
    refine ⟨_, [], rfl, by omega, by simp, firstCharacter?_lead width ?_⟩
    rw [List.foldl_nil, payload, lead]
  split
  · have lead := toNat_ofNat (n := v / 64 % 0x20 + 0xc0) (by omega)
    obtain ⟨width, payload⟩ := width_two (UInt8.ofNat (v / 64 % 0x20 + 0xc0))
      (by omega) (by omega)
    refine ⟨_, [_], rfl, by omega, by simp; omega, firstCharacter?_lead width ?_⟩
    simp only [List.foldl_cons, List.foldl_nil, payload, lead, last]
    omega
  split
  · have lead := toNat_ofNat (n := v / 4096 % 0x10 + 0xe0) (by omega)
    obtain ⟨width, payload⟩ := width_three (UInt8.ofNat (v / 4096 % 0x10 + 0xe0))
      (by omega) (by omega)
    refine ⟨_, [_, _], rfl, by omega, by simp; omega, firstCharacter?_lead width ?_⟩
    simp only [List.foldl_cons, List.foldl_nil, payload, lead, middle, last]
    omega
  · have lead := toNat_ofNat (n := v / 262144 % 0x08 + 0xf0) (by omega)
    obtain ⟨width, payload⟩ := width_four (UInt8.ofNat (v / 262144 % 0x08 + 0xf0))
      (by omega)
    refine ⟨_, [_, _, _], rfl, by omega, by simp; omega, firstCharacter?_lead width ?_⟩
    simp only [List.foldl_cons, List.foldl_nil, payload, lead, upper, middle, last]
    omega

def encode (characters : List Char) : Text := characters.flatMap String.utf8EncodeChar

theorem ofString_eq (string : String) : ofString string = encode string.toList := rfl

@[simp] theorem encode_nil : encode [] = [] := rfl

@[simp] theorem encode_cons (c : Char) (rest : List Char) :
    encode (c :: rest) = String.utf8EncodeChar c ++ encode rest := rfl

@[simp] theorem encode_append (first second : List Char) :
    encode (first ++ second) = encode first ++ encode second := List.flatMap_append

theorem encodeChar_of_ascii {c : Char} (ascii : c.toNat < 0x80) :
    String.utf8EncodeChar c = [c.toNat.toUInt8] := by
  have low : c.val.toNat ≤ 0x7f := Nat.lt_succ_iff.mp ascii
  simp only [String.utf8EncodeChar, low, if_true]
  rfl

def ascii (text : Text) : List Char := text.map Char.ofUInt8

@[simp] theorem ascii_append (first second : Text) :
    ascii (first ++ second) = ascii first ++ ascii second := List.map_append

theorem toNat_ofUInt8 (b : UInt8) : (Char.ofUInt8 b).toNat = b.toNat := UInt8.toNat_toUInt32 b

/-- A text of ASCII bytes is the encoding of its characters. -/
theorem encode_ascii {text : Text} (low : ∀ b ∈ text, b.toNat < 0x80) :
    encode (ascii text) = text := by
  induction text with
  | nil => rfl
  | cons b text ih =>
    obtain ⟨first, others⟩ := List.forall_mem_cons.mp low
    rw [← toNat_ofUInt8] at first
    rw [ascii, List.map_cons, ← ascii, encode_cons, ih others, encodeChar_of_ascii first,
      toNat_ofUInt8]
    simp

/-- What the elements of a list have in common can be computed one by one. -/
theorem forall_mem_of_all {α : Type} {property : α → Prop} [DecidablePred property] {list : List α}
    (all : (list.all fun element => property element) = true) :
    ∀ element ∈ list, property element := by
  simpa using all

theorem encode_spaces (count : Nat) :
    encode (List.replicate count ' ') = List.replicate count Byte.space := by
  induction count with
  | zero => rfl
  | succ count ih =>
    rw [List.replicate_succ, encode_cons, ih]
    rfl

/-- A character with an ASCII byte among its bytes has no other. -/
theorem encodeChar_eq_singleton {c : Char} {b : UInt8} (member : b ∈ String.utf8EncodeChar c)
    (ascii : b.toNat < 0x80) : String.utf8EncodeChar c = [b] ∧ c.toNat = b.toNat := by
  obtain ⟨lead, tail, shape, -, tails, first⟩ := encodeChar_eq_cons c
  have leadEq : lead = b := by
    rw [shape] at member
    rcases List.mem_cons.mp member with same | later
    · exact same.symm
    · have := (continues_iff b).mp (tails b later)
      omega
  subst leadEq
  obtain ⟨width, payload⟩ := width_one lead ascii
  have read := first []
  simp only [List.append_nil, firstCharacter?, width, payload, Nat.sub_self, List.take_zero,
    List.foldl_nil, Option.some.injEq, Prod.mk.injEq] at read
  have noneLeft : tail = [] := List.length_eq_zero_iff.mp (by omega)
  exact ⟨by rw [shape, noneLeft], read.1.symm⟩

/-- An ASCII byte of an encoded text is a character of its own. -/
theorem encode_eq_append_cons {characters : List Char} {before after : Text} {b : UInt8}
    (split : encode characters = before ++ b :: after) (ascii : b.toNat < 0x80) :
    ∃ first c second, characters = first ++ c :: second ∧ encode first = before ∧
      String.utf8EncodeChar c = [b] ∧ encode second = after := by
  induction characters generalizing before with
  | nil => simp at split
  | cons c rest ih =>
    rw [encode_cons] at split
    rcases List.append_eq_append_iff.mp split with ⟨middle, beforeEq, restEq⟩ |
        ⟨middle, cEq, afterEq⟩
    · obtain ⟨first, d, second, rfl, rfl, dEq, rfl⟩ := ih restEq
      exact ⟨c :: first, d, second, rfl, beforeEq.symm, dEq, rfl⟩
    · cases middle with
      | nil =>
        obtain ⟨first, d, second, rfl, noneBefore, dEq, rfl⟩ := @ih [] afterEq.symm
        rw [List.append_nil] at cEq
        exact ⟨c :: first, d, second, rfl, by rw [encode_cons, noneBefore, cEq, List.append_nil],
          dEq, rfl⟩
      | cons head tail =>
        obtain ⟨rfl, rfl⟩ := List.cons.inj afterEq
        have alone := (encodeChar_eq_singleton (c := c) (b := b) (by simp [cEq]) ascii).1
        have shape : before ++ b :: tail = [b] := cEq.symm.trans alone
        obtain ⟨rfl, rfl⟩ : before = [] ∧ tail = [] := by
          rcases List.append_eq_singleton_iff.mp shape with ⟨noneBefore, same⟩ | ⟨-, absurd⟩
          · exact ⟨noneBefore, (List.cons.inj same).2⟩
          · simp at absurd
        exact ⟨[], c, rest, rfl, rfl, alone, rfl⟩

/-- Reading the first character of an encoded text. -/
theorem firstCharacter?_encode (c : Char) (rest : Text) :
    firstCharacter? (String.utf8EncodeChar c ++ rest) =
      some (c.toNat, (String.utf8EncodeChar c).length) := by
  obtain ⟨lead, tail, shape, -, -, first⟩ := encodeChar_eq_cons c
  rw [shape, first]
  rfl

/-- Reading the last character of an encoded text backwards, whatever stands in front of it. -/
theorem lastCharacter?_encode (c : Char) (before : Text) :
    lastCharacter? ((String.utf8EncodeChar c).reverse ++ before) =
      some (c.toNat, (String.utf8EncodeChar c).length) := by
  obtain ⟨lead, tail, shape, starts, continues, first⟩ := encodeChar_eq_cons c
  have taken : ((String.utf8EncodeChar c).reverse ++ before).takeWhile Byte.continuesCharacter =
      tail.reverse := by
    rw [shape, List.reverse_cons, List.append_assoc,
      List.takeWhile_append_of_pos (by simpa using continues)]
    simp [starts]
  have whole : ((String.utf8EncodeChar c).reverse ++ before).take (tail.length + 1) =
      (String.utf8EncodeChar c).reverse := by
    rw [shape, ← List.length_cons (a := lead), ← List.length_reverse, List.take_left]
  unfold lastCharacter?
  simp only [taken, List.length_reverse, whole, List.reverse_reverse]
  have read := first []
  rw [List.append_nil] at read
  rw [shape, read]
  rfl

section Classes

variable (members : CharacterClass)

@[simp] theorem leadingWidth_nil : leadingWidth members [] = 0 := rfl

@[simp] theorem trailingWidth_nil : trailingWidth members [] = 0 := rfl

theorem leadingWidth_encode (c : Char) (rest : Text) :
    leadingWidth members (String.utf8EncodeChar c ++ rest) =
      if members c.toNat then (String.utf8EncodeChar c).length else 0 := by
  simp only [leadingWidth, firstCharacter?_encode]

theorem trailingWidth_encode (c : Char) (before : Text) :
    trailingWidth members ((String.utf8EncodeChar c).reverse ++ before) =
      if members c.toNat then (String.utf8EncodeChar c).length else 0 := by
  simp only [trailingWidth, lastCharacter?_encode]

private theorem dropMeasured_flatMap (width : Text → Nat) (form : Char → Text)
    (positive : ∀ c, 0 < (form c).length) (nothing : width [] = 0)
    (measures : ∀ c rest, width (form c ++ rest) =
      if members c.toNat then (form c).length else 0)
    (characters : List Char) {limit : Nat} (enough : (characters.flatMap form).length ≤ limit) :
    dropMeasured width limit (characters.flatMap form) =
      (characters.dropWhile (members ·.toNat)).flatMap form := by
  induction characters generalizing limit with
  | nil => cases limit <;> simp [dropMeasured, nothing]
  | cons c rest ih =>
    obtain ⟨count, widthEq⟩ := Nat.exists_eq_add_one.mpr (positive c)
    rw [List.flatMap_cons, List.length_append] at enough
    cases limit with
    | zero => omega
    | succ limit =>
      rw [List.flatMap_cons, dropMeasured, measures]
      by_cases member : members c.toNat
      · simp only [member, if_true, List.dropWhile_cons, widthEq]
        rw [← widthEq, List.drop_left]
        exact ih (by omega)
      · simp [member]

/-- Trimming the front takes characters of the class. -/
theorem trimStartOf_encode (characters : List Char) :
    trimStartOf members (encode characters) = encode (characters.dropWhile (members ·.toNat)) :=
  dropMeasured_flatMap members _ _ (fun _ => List.length_pos_iff.mpr String.utf8EncodeChar_ne_nil)
    rfl (leadingWidth_encode members) characters (Nat.le_refl _)

/-- Trimming the end takes characters of the class. -/
theorem trimEndOf_encode (characters : List Char) :
    trimEndOf members (encode characters) = encode (characters.rdropWhile (members ·.toNat)) := by
  have backwards : (encode characters).reverse =
      characters.reverse.flatMap (List.reverse ∘ String.utf8EncodeChar) := List.reverse_flatMap
  have dropped := dropMeasured_flatMap members (trailingWidth members)
    (List.reverse ∘ String.utf8EncodeChar)
    (fun c => by simpa using Char.utf8Size_pos c) rfl
    (fun c rest => by simpa using trailingWidth_encode members c rest) characters.reverse
    (Nat.le_refl _)
  rw [trimEndOf, backwards, ← @List.length_reverse _ (encode characters), backwards, dropped,
    List.reverse_flatMap, List.rdropWhile]
  simp [encode, Function.comp_def]

end Classes

/-- What is trimmed does not matter to what stays. -/
theorem rdropWhile_dropWhile_padded {α : Type} {trimmed : α → Bool} {front behind : List α}
    (leads : ∀ c ∈ front, trimmed c = true) (trails : ∀ c ∈ behind, trimmed c = true)
    (list : List α) : ((front ++ list ++ behind).dropWhile trimmed).rdropWhile trimmed =
      (list.dropWhile trimmed).rdropWhile trimmed := by
  rw [List.append_assoc, List.dropWhile_append_of_pos leads, List.dropWhile_append]
  split
  · next nothing =>
    rw [List.isEmpty_iff.mp nothing, List.dropWhile_eq_nil_iff.mpr trails]
  · rw [List.rdropWhile, List.reverse_append, List.dropWhile_append_of_pos]
    · rfl
    · intro c member
      exact trails c (List.mem_reverse.mp member)

def Blank (characters : List Char) : Prop :=
  ∀ c ∈ characters, CharacterClass.blank c.toNat = true

instance (characters : List Char) : Decidable (Blank characters) :=
  decidable_of_iff (characters.all fun c => CharacterClass.blank c.toNat) List.all_eq_true

theorem blank_nil : Blank [] := fun _ member => absurd member List.not_mem_nil

theorem trimStart_encode (characters : List Char) :
    trimStart (encode characters) =
      encode (characters.dropWhile (CharacterClass.blank ·.toNat)) :=
  trimStartOf_encode _ characters

theorem trimEnd_encode (characters : List Char) :
    trimEnd (encode characters) =
      encode (characters.rdropWhile (CharacterClass.blank ·.toNat)) :=
  trimEndOf_encode _ characters

/-- An encoded character is told from what follows it. -/
theorem encodeChar_append_inj {c d : Char} {first second : Text}
    (same : String.utf8EncodeChar c ++ first = String.utf8EncodeChar d ++ second) :
    c = d ∧ first = second := by
  have read := firstCharacter?_encode c first
  rw [same, firstCharacter?_encode] at read
  obtain ⟨code, -⟩ := Prod.mk.inj (Option.some.inj read)
  obtain rfl : d = c := Char.ext (UInt32.toNat_inj.mp code)
  exact ⟨rfl, List.append_cancel_left same⟩

theorem encodeChar_injective : Function.Injective String.utf8EncodeChar := fun _ _ same =>
  (encodeChar_append_inj (congrArg (· ++ []) same)).1

/-- Encoded texts that agree are of the same characters. -/
theorem encode_injective {first second : List Char} (same : encode first = encode second) :
    first = second := by
  induction first generalizing second with
  | nil =>
    cases second with
    | nil => rfl
    | cons d second =>
      exact absurd same.symm (by simp [String.utf8EncodeChar_ne_nil])
  | cons c first ih =>
    cases second with
    | nil => exact absurd same (by simp [String.utf8EncodeChar_ne_nil])
    | cons d second =>
      obtain ⟨rfl, rest⟩ := encodeChar_append_inj same
      rw [ih rest]

/-- An ASCII character stands among some characters if its byte stands among theirs. -/
theorem mem_encode_iff {c : Char} {b : UInt8} (spelled : String.utf8EncodeChar c = [b])
    (ascii : b.toNat < 0x80) {characters : List Char} : b ∈ encode characters ↔ c ∈ characters := by
  constructor
  · intro member
    obtain ⟨d, inside, member⟩ := List.mem_flatMap.mp member
    obtain rfl : d = c :=
      encodeChar_injective ((encodeChar_eq_singleton member ascii).1.trans spelled.symm)
    exact inside
  · intro inside
    exact List.mem_flatMap.mpr ⟨c, inside, by simp [spelled]⟩

theorem eq_nil_of_encode {characters : List Char} (nothing : encode characters = []) :
    characters = [] := by
  apply encode_injective
  exact nothing

/-- Taking a needle off the front succeeds exactly on the texts that begin with it. -/
theorem after?_eq_some_iff {text needle rest : Text} :
    after? text needle = some rest ↔ text = needle ++ rest := by
  induction needle generalizing text with
  | nil => cases text <;> simp [after?]
  | cons n needle ih =>
    cases text with
    | nil => simp [after?]
    | cons b text =>
      rw [after?, List.cons_append, List.cons.injEq]
      split
      · next same => simp [same, ih]
      · next differs => simp [differs]

theorem startsWith_iff {text needle : Text} :
    startsWith text needle = true ↔ ∃ rest, text = needle ++ rest := by
  simp only [startsWith, Option.isSome_iff_exists, after?_eq_some_iff]

/-- What an encoded text begins with in whole characters leaves whole characters. -/
theorem encode_eq_encode_append {characters needle : List Char} {rest : Text}
    (split : encode characters = encode needle ++ rest) :
    ∃ others, characters = needle ++ others ∧ encode others = rest := by
  induction needle generalizing characters with
  | nil => exact ⟨characters, rfl, split⟩
  | cons d needle ih =>
    cases characters with
    | nil => exact absurd split.symm (by simp [String.utf8EncodeChar_ne_nil])
    | cons c characters =>
      rw [encode_cons, encode_cons, List.append_assoc] at split
      obtain ⟨rfl, remaining⟩ := encodeChar_append_inj split
      obtain ⟨others, rfl, encoded⟩ := ih remaining
      exact ⟨others, rfl, encoded⟩

/-- A byte that begins a character is where an encoded text is cut between characters. -/
theorem encode_eq_append_of_begins {characters : List Char} {before after : Text} {b : UInt8}
    (split : encode characters = before ++ b :: after)
    (begins : Byte.continuesCharacter b = false) :
    ∃ first second, characters = first ++ second ∧ encode first = before ∧
      encode second = b :: after := by
  induction characters generalizing before with
  | nil => simp at split
  | cons c rest ih =>
    rw [encode_cons] at split
    rcases List.append_eq_append_iff.mp split with ⟨middle, beforeEq, restEq⟩ |
        ⟨middle, cEq, afterEq⟩
    · obtain ⟨first, second, rfl, rfl, restBytes⟩ := ih restEq
      exact ⟨c :: first, second, rfl, beforeEq.symm, restBytes⟩
    · obtain ⟨lead, tail, shape, -, continues, -⟩ := encodeChar_eq_cons c
      cases before with
      | nil => exact ⟨[], c :: rest, rfl, rfl, split⟩
      | cons d before =>
        rw [shape, List.cons_append, List.cons.injEq] at cEq
        cases middle with
        | nil =>
          refine ⟨[c], rest, rfl, ?_, by simpa using afterEq.symm⟩
          rw [encode_cons, encode_nil, List.append_nil, shape, cEq.1, cEq.2, List.append_nil]
        | cons e middle =>
          obtain ⟨rfl, -⟩ := List.cons.inj afterEq
          have inside := continues b (by simp [cEq.2])
          rw [begins] at inside
          contradiction

/-- Whole characters stand in an encoded text as characters. -/
theorem encode_eq_append_encode {characters name : List Char} {before after : Text}
    (nonempty : name ≠ []) (split : encode characters = before ++ encode name ++ after) :
    ∃ front rest, characters = front ++ name ++ rest ∧ encode front = before ∧
      encode rest = after := by
  obtain ⟨c, name, rfl⟩ := List.exists_cons_of_ne_nil nonempty
  obtain ⟨lead, tail, shape, begins, -⟩ := encodeChar_eq_cons c
  have cut : encode characters = before ++ lead :: (tail ++ encode name ++ after) := by
    rw [split, encode_cons, shape]
    simp
  obtain ⟨front, second, rfl, rfl, bytes⟩ := encode_eq_append_of_begins cut begins
  have whole : encode second = encode (c :: name) ++ after := by
    rw [bytes, encode_cons, shape]
    simp
  obtain ⟨rest, rfl, rfl⟩ := encode_eq_encode_append whole
  exact ⟨front, rest, (List.append_assoc ..).symm, rfl, rfl⟩

/-- Of two ways to cut some characters the later one leaves the piece between them. -/
theorem exists_append_of_length_le {first second other rest : List Char}
    (same : first ++ second = other ++ rest)
    (short : (encode first).length ≤ (encode other).length) :
    ∃ more, other = first ++ more ∧ second = more ++ rest := by
  rcases List.append_eq_append_iff.mp same with ⟨more, rfl, behind⟩ | ⟨more, rfl, behind⟩
  · exact ⟨more, rfl, behind⟩
  · rw [encode_append, List.length_append] at short
    obtain rfl : more = [] := eq_nil_of_encode (List.length_eq_zero_iff.mp (by omega))
    exact ⟨[], by simp, behind.symm⟩

/-- Characters are cut in one way where some bytes of them end. -/
theorem append_inj_of_length {first second other rest : List Char}
    (same : first ++ second = other ++ rest)
    (place : (encode first).length = (encode other).length) : first = other := by
  have bytes := congrArg encode same
  rw [encode_append, encode_append] at bytes
  exact encode_injective (List.append_inj bytes place).1

/-- A byte that is read stands between what is in front of it and what is behind it. -/
theorem exists_append_of_getElem? {text : Text} {offset : Nat} {b : UInt8}
    (here : text[offset]? = some b) :
    ∃ front behind, text = front ++ b :: behind ∧ front.length = offset := by
  obtain ⟨inside, rfl⟩ := List.getElem?_eq_some_iff.mp here
  refine ⟨text.take offset, text.drop (offset + 1), ?_, ?_⟩
  · rw [List.getElem_cons_drop, List.take_append_drop]
  · exact List.length_take_of_le inside.le

def IsString (text : Text) : Prop := ∃ characters, text = encode characters

theorem IsString.exists_string {text : Text} :
    IsString text → ∃ string, text = ofString string := by
  rintro ⟨characters, rfl⟩
  exact ⟨String.ofList characters, by rw [ofString_eq, String.toList_ofList]⟩

/-- The string of some characters is read back from their bytes. -/
theorem toString?_encode (characters : List Char) :
    toString? (encode characters) = some (String.ofList characters) :=
  dif_pos (.intro characters rfl)

/-- The texts that decode are those that some characters encode. -/
theorem isSome_toString?_iff {text : Text} : text.toString?.isSome = true ↔ IsString text := by
  constructor
  · intro read
    have valid : text.toByteArray.IsValidUTF8 := by
      by_contra invalid
      rw [toString?, String.fromUTF8?, dif_neg invalid] at read
      exact Bool.false_ne_true read
    cases valid with
    | intro characters same => exact ⟨characters, List.toByteArray_inj.mp same⟩
  · rintro ⟨characters, rfl⟩
    rw [toString?_encode]
    rfl

theorem isString_ofString (string : String) : IsString (ofString string) :=
  ⟨string.toList, ofString_eq string⟩

/-- Valid texts, one behind the other, are valid. -/
theorem IsString.append {first second : Text} :
    IsString first → IsString second → IsString (first ++ second) := by
  rintro ⟨characters, rfl⟩ ⟨others, rfl⟩
  exact ⟨characters ++ others, (encode_append ..).symm⟩

/-- An ASCII byte of a string stands between two strings. -/
theorem isString_of_append_cons {before after : Text} {b : UInt8}
    (string : IsString (before ++ b :: after)) (ascii : b.toNat < 0x80) :
    IsString before ∧ IsString after := by
  obtain ⟨characters, split⟩ := string
  obtain ⟨first, _, second, -, rfl, -, rfl⟩ := encode_eq_append_cons split.symm ascii
  exact ⟨⟨first, rfl⟩, ⟨second, rfl⟩⟩

theorem IsString.trim {text : Text} : IsString text → IsString text.trim := by
  rintro ⟨characters, rfl⟩
  rw [Text.trim, trimStart_encode, trimEnd_encode]
  exact ⟨_, rfl⟩

theorem isString_newline : IsString [Byte.newline] := ⟨['\n'], rfl⟩

theorem isString_of_low {text : Text} (low : ∀ b ∈ text, b.toNat < 0x80) : IsString text :=
  ⟨ascii text, (encode_ascii low).symm⟩

end Text

theorem CharacterClass.oneOf_encode {members : List Char} (ascii : ∀ c ∈ members, c.toNat < 0x80)
    (c : Char) : oneOf (Text.encode members) c.toNat = true ↔ c ∈ members := by
  unfold oneOf
  induction members with
  | nil => simp
  | cons d rest ih =>
    obtain ⟨low, others⟩ := List.forall_mem_cons.mp ascii
    have code : d.toNat.toUInt8.toNat = d.toNat := Nat.mod_eq_of_lt (Nat.lt_trans low (by decide))
    have same : d.toNat = c.toNat ↔ c = d := by rw [Char.toNat_inj, eq_comm]
    rw [Text.encode_cons, Text.encodeChar_of_ascii low, List.singleton_append, List.any_cons,
      Bool.or_eq_true, ih others, code, beq_iff_eq, same, List.mem_cons]

theorem CharacterClass.not_mem_of_noneOf {hidden : Text} {c : Char} (members : List Char)
    (spelled : hidden = Text.encode members) (ascii : ∀ d ∈ members, d.toNat < 0x80)
    (outside : noneOf hidden c.toNat = true) : c ∉ members := by
  subst spelled
  intro inside
  rw [noneOf, (oneOf_encode ascii c).mpr inside] at outside
  contradiction

end BareComponent
