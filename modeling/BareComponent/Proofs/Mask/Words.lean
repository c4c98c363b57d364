import BareComponent.Proofs.Mask.Glyph
import BareComponent.Proofs.Mask.Literals
import BareComponent.Proofs.Pattern.Encoded
import BareComponent.Proofs.Text.Boundary

/-! # Words under the mask

The mask hides no part of a word alone. Where a byte of a word is shown, so are the bytes of words
that stand beside it, because a literal and the delimiter of an interpolation begin and end with bytes
that belong to no word. A word that a mask shows therefore stands in the text, with the same words
around it.
-/

namespace BareComponent

/-- Whether a byte belongs to a character that can go on in a name. Of the bytes that are not ASCII
all may. -/
def Byte.inName (b : UInt8) : Bool := continuesIdentifier b || 0x80 ≤ b

theorem Byte.ne_of_inName {b other : UInt8} (inside : inName b = true)
    (outside : inName other = false) : b ≠ other := by
  rintro rfl
  rw [inside] at outside
  contradiction

namespace Text

/-- Whether a text that is written over another keeps the words of the other whole: it shows no byte
of a name that the other has not, and where it shows one it shows those beside it. -/
structure KeepsWords (text shown : Text) : Prop where
  length : shown.length = text.length
  spelled : ∀ (i : Nat) (b : UInt8), shown[i]? = some b → Byte.inName b = true → text[i]? = some b
  inFront : ∀ (i : Nat) (b c : UInt8), text[i]? = some b → Byte.inName b = true →
    shown[i + 1]? = some c → Byte.inName c = true → shown[i]? = some b
  behind : ∀ (i : Nat) (b c : UInt8), shown[i]? = some b → Byte.inName b = true →
    text[i + 1]? = some c → Byte.inName c = true → shown[i + 1]? = some c

/-- Keeping words is transitive. -/
theorem KeepsWords.trans {text shown other : Text} (keeps : KeepsWords text shown)
    (others : KeepsWords shown other) : KeepsWords text other where
  length := others.length.trans keeps.length
  spelled i b here inside := keeps.spelled i b (others.spelled i b here inside) inside
  inFront i b c here inside next nextInside :=
    others.inFront i b c (keeps.inFront i b c here inside
      (others.spelled _ _ next nextInside) nextInside) inside next nextInside
  behind i b c here inside next nextInside :=
    others.behind i b c here inside (keeps.behind i b c (others.spelled _ _ here inside) inside
      next nextInside) nextInside

end Text

namespace Scanner

open Text

variable {text : Text} {place : Nat} {b : UInt8}

private theorem next_of_claimed (state : State) (b : UInt8) (next : Option UInt8)
    (claimed : (step state b next).claimed = true) (code : (step state b next).mode = .code) :
    next = some Byte.slash ∨ next = some Byte.openBrace := by
  rcases state with ⟨mode, _ | _, braces⟩
  · cases mode with
    | code =>
      simp only [step, codeStep, Bool.false_eq_true, if_false] at claimed code
      split_ifs at claimed code
      simp [braceStep_claimed] at claimed
    | quoted quote =>
      simp only [step, Bool.false_eq_true, if_false] at claimed code
      split_ifs at claimed code
    | lineComment =>
      simp only [step, Bool.false_eq_true, if_false] at claimed code
      split_ifs at claimed code
    | blockComment =>
      simp only [step, Bool.false_eq_true, if_false] at claimed code
      split_ifs at claimed code with closing
      exact .inl closing.2
    | template =>
      simp only [step, Bool.false_eq_true, if_false] at claimed code
      split_ifs at claimed code with escape tick opening
      exact .inr opening.2
  · simp [step] at claimed

private theorem getElem?_of_claimed (claimed : (stateAt text place).claimed = true)
    (code : (stateAt text place).mode = .code) :
    text[place]? = some Byte.slash ∨ text[place]? = some Byte.openBrace := by
  induction place with
  | zero => simp [stateAt, start] at claimed
  | succ place ih =>
    cases reads : text[place]? with
    | none =>
      rw [stateAt_succ_of_none reads] at claimed code
      have := ih claimed code
      simp [reads] at this
    | some b =>
      rw [stateAt_succ reads] at claimed code
      exact next_of_claimed _ _ _ claimed code

/-- A byte of a name is code where the mask shows it. -/
theorem code_of_inName (reads : text.mask[place]? = some b) (inside : Byte.inName b = true) :
    text[place]? = some b ∧ (stateAt text place).mode = .code ∧
      (stateAt text place).claimed = false :=
  code_of_mask reads
    ⟨Byte.ne_of_inName inside (by decide), Byte.ne_of_inName inside (by decide)⟩
    (Byte.ne_of_inName inside (by decide)) (Byte.ne_of_inName inside (by decide))
    (Byte.ne_of_inName inside (by decide))

private theorem shows_of_step {state : State} {next : Option UInt8} (inside : Byte.inName b = true)
    (unclaimed : state.claimed = false) (code : (step state b next).mode = .code)
    (free : (step state b next).claimed = false) : shows state b next = true := by
  have other (c : UInt8) (outside : Byte.inName c = false) : b ≠ c :=
    Byte.ne_of_inName inside outside
  obtain ⟨mode, claimed, braces⟩ := state
  obtain rfl : claimed = false := unclaimed
  cases mode with
  | code => simp [shows, showsCode, other Byte.slash (by decide), other Byte.closeBrace (by decide)]
  | quoted quote =>
    have closing : b ≠ quote.byte := other _ (by cases quote <;> decide)
    simp [step, closing, other Byte.backslash (by decide), other Byte.newline (by decide)] at code
  | lineComment => simp [step, other Byte.newline (by decide)] at code
  | blockComment => simp [step, other Byte.asterisk (by decide)] at code
  | template =>
    simp only [step, Bool.false_eq_true, if_false, other Byte.backslash (by decide),
      other Byte.backtick (by decide)] at code free
    split_ifs at code free

end Scanner

namespace Text

open Scanner

/-- The mask keeps the words of a text whole. -/
theorem keepsWords_mask (text : Text) : KeepsWords text text.mask where
  length := mask_length text
  spelled _ _ here inside := (code_of_inName here inside).1
  inFront i b c here inside next nextInside := by
    obtain ⟨-, code, free⟩ := code_of_inName next nextInside
    rw [stateAt_succ here] at code free
    rw [getElem?_mask here, shown]
    cases claimed : (stateAt text i).claimed with
    | true =>
      have same : step (stateAt text i) b text[i + 1]? = { stateAt text i with claimed := false } :=
        by rw [step, claimed, if_pos rfl]
      rw [same] at code
      rcases getElem?_of_claimed claimed code with slash | brace
      · exact absurd (Option.some.inj (here.symm.trans slash))
          (Byte.ne_of_inName inside (by decide))
      · exact absurd (Option.some.inj (here.symm.trans brace))
          (Byte.ne_of_inName inside (by decide))
    | false => rw [shows_of_step inside claimed code free, if_pos rfl]
  behind i b c here inside next nextInside := by
    obtain ⟨reads, code, free⟩ := code_of_inName here inside
    have other (d : UInt8) (outside : Byte.inName d = false) : b ≠ d :=
      Byte.ne_of_inName inside outside
    rw [getElem?_mask next, stateAt_succ reads, step, free, code]
    simp only [Bool.false_eq_true, if_false]
    rw [codeStep_plain _ _ (other _ (by decide)) (other _ (by decide)) (other _ (by decide))
      (other _ (by decide)) (other _ (by decide)) (other _ (by decide))]
    simp [shown, shows, showsCode, Byte.ne_of_inName nextInside (by decide : Byte.inName
      Byte.slash = false), Byte.ne_of_inName nextInside (by decide : Byte.inName
      Byte.closeBrace = false)]

section Occurrence

variable {text shown bytes before behind : Text}

theorem inName_of_wordOrDollar {c : Char} (inside : CharacterClass.wordOrDollar c.toNat = true) :
    ∀ b ∈ String.utf8EncodeChar c, Byte.inName b = true := by
  intro b member
  by_cases low : b.toNat < 0x80
  · have plain : ∀ code < 0x80, CharacterClass.wordOrDollar code = true →
        Byte.inName code.toUInt8 = true := by decide +kernel
    have code := (encodeChar_eq_singleton member low).2
    have named := plain b.toNat low (code ▸ inside)
    rwa [Nat.toUInt8_eq, UInt8.ofNat_toNat] at named
  · have high : (0x80 ≤ b) = true := by simpa [UInt8.le_iff_toNat_le] using low
    simp [Byte.inName, high]

private theorem exists_append_singleton {above below : Text} {count : Nat} {c : UInt8}
    (length : above.length = count + 1) (here : (above ++ below)[count]? = some c) :
    ∃ others, above = others ++ [c] ∧ others.length = count := by
  rcases List.eq_nil_or_concat' above with rfl | ⟨others, d, rfl⟩
  · simp at length
  · obtain rfl : others.length = count := by simpa using length
    rw [List.append_assoc, List.getElem?_append_right le_rfl, Nat.sub_self] at here
    obtain rfl : d = c := by simpa using here
    exact ⟨others, rfl, rfl⟩

namespace KeepsWords

variable (keeps : KeepsWords text shown)
include keeps

private theorem exists_of_shown (split : shown = before ++ bytes ++ behind)
    (inside : ∀ b ∈ bytes, Byte.inName b = true) :
    ∃ above below, text = above ++ bytes ++ below ∧ above.length = before.length := by
  induction bytes generalizing before with
  | nil =>
    have short : before.length ≤ text.length := by
      rw [← keeps.length, split]
      simp
    exact ⟨text.take before.length, text.drop before.length, by simp, List.length_take_of_le short⟩
  | cons b bytes ih =>
    obtain ⟨bInside, inside⟩ := List.forall_mem_cons.mp inside
    have here := keeps.spelled before.length b (by simp [split]) bInside
    have later : shown = before ++ [b] ++ bytes ++ behind := by simp [split]
    obtain ⟨_, below, rfl, length⟩ := ih later inside
    rw [List.append_assoc] at here
    obtain ⟨above, rfl, shorter⟩ :=
      exists_append_singleton (length.trans List.length_append) here
    exact ⟨above, below, by simp, shorter⟩

private theorem exists_in_front (split : text = before ++ bytes ++ behind)
    (inside : ∀ b ∈ bytes, Byte.inName b = true) {c : UInt8}
    (next : shown[(before ++ bytes).length]? = some c) (nextInside : Byte.inName c = true) :
    ∃ above below, shown = above ++ bytes ++ c :: below ∧ above.length = before.length := by
  induction bytes using List.reverseRecOn generalizing behind c with
  | nil =>
    obtain ⟨above, below, rfl, length⟩ := exists_append_of_getElem? next
    exact ⟨above, below, by simp, by simpa using length⟩
  | append_singleton bytes b ih =>
    have bInside := inside b (by simp)
    have here : text[(before ++ bytes).length]? = some b := by simp [split]
    rw [← List.append_assoc, List.length_append, List.length_singleton] at next
    have shows := keeps.inFront _ b c here bInside next nextInside
    have earlier : text = before ++ bytes ++ b :: behind := by simp [split]
    obtain ⟨above, below, rfl, length⟩ :=
      ih earlier (fun d member => inside d (by simp [member])) shows bInside
    have place : (before ++ bytes).length + 1 = (above ++ bytes).length + 1 := by
      simp [length]
    rw [place, List.getElem?_append_right (by omega), Nat.add_sub_cancel_left] at next
    obtain ⟨below, rfl⟩ : ∃ others, below = c :: others := List.head?_eq_some_iff.mp
      (List.head?_eq_getElem?.trans next)
    exact ⟨above, below, by simp, length⟩

private theorem exists_behind (split : text = before ++ bytes ++ behind)
    (inside : ∀ b ∈ bytes, Byte.inName b = true) {place : Nat} {b : UInt8}
    (placeEq : before.length = place + 1) (here : shown[place]? = some b)
    (bInside : Byte.inName b = true) :
    ∃ above below, shown = above ++ bytes ++ below ∧ above.length = before.length := by
  induction bytes generalizing before place b with
  | nil =>
    have short : before.length ≤ shown.length := by
      rw [placeEq]
      exact (List.getElem?_eq_some_iff.mp here).1
    exact ⟨shown.take before.length, shown.drop before.length, by simp,
      List.length_take_of_le short⟩
  | cons c bytes ih =>
    obtain ⟨cInside, inside⟩ := List.forall_mem_cons.mp inside
    have next : text[place + 1]? = some c := by simp [split, ← placeEq]
    have shows := keeps.behind place b c here bInside next cInside
    have later : text = before ++ [c] ++ bytes ++ behind := by simp [split]
    obtain ⟨_, below, rfl, length⟩ := ih later inside (by simp [placeEq]) shows cInside
    rw [← placeEq, List.append_assoc] at shows
    obtain ⟨above, rfl, shorter⟩ :=
      exists_append_singleton (length.trans List.length_append) shows
    exact ⟨above, below, by simp, shorter⟩

end KeepsWords

private theorem inName_of_forall {characters : List Char}
    (inside : ∀ c ∈ characters, CharacterClass.wordOrDollar c.toNat = true) :
    ∀ b ∈ encode characters, Byte.inName b = true := by
  intro b member
  obtain ⟨c, cInside, member⟩ := List.mem_flatMap.mp member
  exact inName_of_wordOrDollar (inside c cInside) b member

variable {characters front name rest : List Char}

/-- A word that is shown stands in the text, and what goes on with it there on either side is shown
as well. -/
theorem KeepsWords.exists_around
    (keeps : KeepsWords (encode characters) (encode (front ++ name ++ rest))) (nonempty : name ≠ [])
    (inside : ∀ c ∈ name, CharacterClass.wordOrDollar c.toNat = true) :
    ∃ before after, characters = before ++ name ++ after ∧
      (encode before).length = (encode front).length ∧
      (∀ above word, before = above ++ word →
        (∀ c ∈ word, CharacterClass.wordOrDollar c.toNat = true) → ∃ others, front = others ++ word) ∧
      ∀ c ∈ after.head?, CharacterClass.wordOrDollar c.toNat = true → c ∈ rest.head? := by
  have bytesInside := inName_of_forall inside
  have whole : encode (front ++ name ++ rest) = encode front ++ encode name ++ encode rest := by
    rw [encode_append, encode_append]
  obtain ⟨above, below, split, length⟩ := keeps.exists_of_shown whole bytesInside
  obtain ⟨before, after, rfl, rfl, rfl⟩ := encode_eq_append_encode nonempty split
  have encodedNonempty : encode name ≠ [] := mt eq_nil_of_encode nonempty
  refine ⟨before, after, rfl, length, ?_, ?_⟩
  · rintro above word rfl word_inside
    obtain ⟨d, bytes, first⟩ := List.exists_cons_of_ne_nil encodedNonempty
    have parts : encode (above ++ word ++ name ++ after) =
        encode above ++ encode word ++ (encode name ++ encode after) := by simp
    have next : (encode (front ++ name ++ rest))[(encode above ++ encode word).length]? =
        some d := by
      rw [← encode_append, length, whole, first, List.append_assoc,
        List.getElem?_append_right le_rfl, Nat.sub_self]
      rfl
    obtain ⟨others, below, shownEq, othersLength⟩ := keeps.exists_in_front parts
      (inName_of_forall word_inside) next (bytesInside d (by simp [first]))
    have fronts : encode front = others ++ encode word := by
      rw [whole, List.append_assoc] at shownEq
      refine (List.append_inj shownEq ?_).1
      rw [← length, encode_append, List.length_append, List.length_append, othersLength]
    rcases eq_or_ne word [] with rfl | wordSome
    · exact ⟨front, (List.append_nil front).symm⟩
    · obtain ⟨others, nothing, rfl, -, noneBehind⟩ :=
        encode_eq_append_encode wordSome (fronts.trans (List.append_nil _).symm)
      exact ⟨others, by rw [eq_nil_of_encode noneBehind, List.append_nil]⟩
  · intro c first continues
    obtain ⟨r, rfl⟩ := List.head?_eq_some_iff.mp first
    obtain ⟨bytes, d, last⟩ := (List.eq_nil_or_concat' (encode name)).resolve_left encodedNonempty
    have parts : encode (before ++ name ++ c :: r) =
        encode before ++ encode name ++ encode [c] ++ encode r := by simp
    have here : (encode (front ++ name ++ rest))[(encode before ++ bytes).length]? = some d := by
      rw [whole, last, List.append_assoc, List.append_assoc, ← List.append_assoc,
        List.getElem?_append_right (by simp [length])]
      simp [length]
    obtain ⟨above, below, shownEq, aboveLength⟩ := keeps.exists_behind parts
      (by simpa using inName_of_wordOrDollar continues) (by simp [last, Nat.add_assoc]) here
      (bytesInside d (by simp [last]))
    have behind : encode rest = encode [c] ++ below := by
      rw [whole, List.append_assoc above] at shownEq
      exact (List.append_inj shownEq (by simp [aboveLength, length])).2
    obtain ⟨others, rfl, -⟩ := encode_eq_encode_append behind
    rfl

end Occurrence

end Text

end BareComponent
