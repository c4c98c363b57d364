import BareComponent.Proofs.Mask.Lines
import BareComponent.Proofs.Text.Replace

/-! # Cutting a text into pieces

A text is split at every byte of one kind, cut at the first or the last of them, and freed of blanks
and of copies of a word at its ends. Where the byte is an ASCII character, each of these does to the
bytes what it does to the characters, so a piece of a string is a string whose place in it is known.
-/

namespace BareComponent

/-- A piece of a split stands between two separators or ends of the list. -/
theorem exists_of_mem_splitOn {α : Type} [DecidableEq α] {stop : α} {list piece : List α}
    (member : piece ∈ list.splitOn stop) :
    ∃ front behind, list = front ++ piece ++ behind ∧ (∀ a ∈ front.getLast?, a = stop) ∧
      (∀ a ∈ behind.head?, a = stop) ∧ stop ∉ piece := by
  induction list using linesBy_induction stop with
  | nil =>
    obtain rfl : piece = [] := by simpa using member
    exact ⟨[], [], by simp⟩
  | last line nonempty free =>
    rw [List.splitOn_eq_singleton free] at member
    obtain rfl := List.mem_singleton.mp member
    exact ⟨[], [], by simp, by simp, by simp, free⟩
  | line front rest free ih =>
    rw [List.splitOn_append_cons_self_of_not_mem free] at member
    rcases List.mem_cons.mp member with rfl | later
    · exact ⟨[], stop :: rest, by simp, by simp, by simp, free⟩
    · obtain ⟨before, behind, rfl, starts, stops, apart⟩ := ih later
      refine ⟨front ++ stop :: before, behind, by simp, ?_, stops, apart⟩
      cases before with
      | nil => simp
      | cons a before => simpa using starts

namespace Text

theorem join_eq_intercalate (separator : Text) (pieces : List Text) :
    join separator pieces = separator.intercalate pieces := by
  induction pieces with
  | nil => rfl
  | cons piece pieces ih =>
    cases pieces with
    | nil => simp [join]
    | cons next pieces => rw [join, ih, List.intercalate_cons_cons]

theorem join_append {separator : Text} {first second : List Text} (nonempty : first ≠ [])
    (others : second ≠ []) :
    join separator (first ++ second) =
      join separator first ++ separator ++ join separator second := by
  obtain ⟨next, second, rfl⟩ := List.exists_cons_of_ne_nil others
  induction first with
  | nil => exact absurd rfl nonempty
  | cons piece first ih =>
    cases first with
    | nil => rfl
    | cons other first =>
      have rest := ih (List.cons_ne_nil other first)
      simp only [List.cons_append] at rest ⊢
      simp only [join, rest, List.append_assoc]

/-- What stands in a joined text stands in a piece or in a separator. -/
theorem mem_join {separator : Text} {pieces : List Text} {b : UInt8}
    (member : b ∈ join separator pieces) : b ∈ separator ∨ ∃ piece ∈ pieces, b ∈ piece := by
  induction pieces with
  | nil => exact absurd member List.not_mem_nil
  | cons piece pieces ih =>
    cases pieces with
    | nil => exact .inr ⟨piece, List.mem_cons_self, member⟩
    | cons next pieces =>
      simp only [join, List.mem_append] at member
      rcases member with (here | between) | later
      · exact .inr ⟨piece, List.mem_cons_self, here⟩
      · exact .inl between
      · exact (ih later).imp_right fun ⟨other, found, inside⟩ =>
          ⟨other, List.mem_cons_of_mem _ found, inside⟩

/-- A text is split at an ASCII character as its characters are. -/
theorem splitOn_encode {c : Char} {b : UInt8} (spelled : String.utf8EncodeChar c = [b])
    (ascii : b.toNat < 0x80) (characters : List Char) :
    (encode characters).splitOn b = (characters.splitOn c).map encode := by
  induction characters using linesBy_induction c with
  | nil => rfl
  | last line nonempty free =>
    rw [List.splitOn_eq_singleton free,
      List.splitOn_eq_singleton (mt (mem_encode_iff spelled ascii).mp free)]
    rfl
  | line front rest free ih =>
    rw [List.splitOn_append_cons_self_of_not_mem free, List.map_cons, ← ih, encode_append,
      encode_cons, spelled, List.singleton_append, List.splitOn_append_cons_self_of_not_mem
        (mt (mem_encode_iff spelled ascii).mp free)]

/-- A cut where some characters stand first leaves whole characters on both sides. -/
theorem exists_of_cut?_encode {characters needle : List Char} {sides : Text × Text}
    (nonempty : needle ≠ []) (cut : (encode characters).cut? (encode needle) = some sides) :
    ∃ first second, characters = first ++ needle ++ second ∧
      sides = (encode first, encode second) := by
  obtain ⟨first, second, rfl, front, behind⟩ := encode_eq_append_encode nonempty (eq_of_cut? cut)
  exact ⟨first, second, rfl, Prod.ext front.symm behind.symm⟩

theorem cut?_encode_eq_none_iff {characters needle : List Char} (nonempty : needle ≠ []) :
    (encode characters).cut? (encode needle) = none ↔
      ∀ first second, characters ≠ first ++ needle ++ second := by
  rw [cut?_eq_none_iff]
  constructor
  · rintro nowhere first second rfl
    exact nowhere ⟨encode first, encode second, by simp⟩
  · rintro nowhere ⟨first, second, split⟩
    obtain ⟨first, second, rfl, -⟩ := encode_eq_append_encode nonempty split.symm
    exact nowhere first second rfl

/-- A text that neither begins nor ends with a blank is trimmed to itself. -/
theorem trim_eq_self {text : Text} (front : leadingWidth CharacterClass.blank text = 0)
    (behind : trailingWidth CharacterClass.blank text.reverse = 0) : text.trim = text := by
  have kept (width : Text → Nat) (limit : Nat) (rest : Text) (nothing : width rest = 0) :
      dropMeasured width limit rest = rest := by
    cases limit with
    | zero => rfl
    | succ limit => rw [dropMeasured, nothing]
  have start : text.trimStart = text := kept _ _ _ front
  rw [trim, start, trimEnd, trimEndOf, kept _ _ _ behind, List.reverse_reverse]

/-- Trimming takes blanks off both ends. -/
theorem exists_trim_encode (characters : List Char) :
    ∃ front kept behind, characters = front ++ kept ++ behind ∧ Blank front ∧ Blank behind ∧
      (encode characters).trim = encode kept := by
  let isBlank : Char → Bool := fun c => CharacterClass.blank c.toNat
  refine ⟨characters.takeWhile isBlank, (characters.dropWhile isBlank).rdropWhile isBlank,
    (characters.dropWhile isBlank).rtakeWhile isBlank, ?_, fun c => List.mem_takeWhile_imp,
    fun c => List.mem_rtakeWhile_imp, ?_⟩
  · rw [List.append_assoc, List.rdropWhile_append_rtakeWhile, List.takeWhile_append_dropWhile]
  · rw [trim, trimStart_encode, trimEnd_encode]

/-- Blanks around some characters do not matter to what is left of them. -/
theorem trim_encode_append {front behind : List Char} (blank : Blank front)
    (behindBlank : Blank behind) (characters : List Char) :
    (encode (front ++ characters ++ behind)).trim = (encode characters).trim := by
  simp only [trim, trimStart_encode, trimEnd_encode, rdropWhile_dropWhile_padded blank behindBlank]

/-- Blanks around what neither begins nor ends with one are taken off. -/
theorem trim_encode_padded {front kept behind : List Char} (blank : Blank front)
    (behindBlank : Blank behind)
    (starts : ∀ c ∈ kept.head?, CharacterClass.blank c.toNat = false)
    (ends : ∀ c ∈ kept.getLast?, CharacterClass.blank c.toNat = false) :
    (encode (front ++ kept ++ behind)).trim = encode kept := by
  rw [trim_encode_append blank behindBlank, trim, trimStart_encode, trimEnd_encode]
  have frontKept : kept.dropWhile (CharacterClass.blank ·.toNat) = kept := by
    cases kept with
    | nil => rfl
    | cons c kept => simp [starts c rfl]
  have behindKept : kept.rdropWhile (CharacterClass.blank ·.toNat) = kept := by
    rcases List.eq_nil_or_concat' kept with rfl | ⟨others, c, rfl⟩
    · rfl
    · rw [List.rdropWhile_concat_neg]
      simp [ends c (by simp)]
  rw [frontKept, behindKept]

/-- The copies of a word in front of what does not begin with it are taken off. -/
theorem dropCopies_append {needle rest : Text} (nonempty : needle ≠ [])
    (other : rest.startsWith needle = false) (count : Nat) :
    dropCopies ((List.replicate count needle).flatten ++ rest) needle = rest := by
  have stops : rest.after? needle = none := by simpa [startsWith] using other
  have all (limit : Nat) (enough : count ≤ limit) :
      dropCopiesUpTo needle limit ((List.replicate count needle).flatten ++ rest) = rest := by
    induction count generalizing limit with
    | zero =>
      cases limit with
      | zero => rfl
      | succ limit => simp [dropCopiesUpTo, stops]
    | succ count ih =>
      cases limit with
      | zero => omega
      | succ limit =>
        have copy : after? ((List.replicate (count + 1) needle).flatten ++ rest) needle =
            some ((List.replicate count needle).flatten ++ rest) :=
          after?_eq_some_iff.mpr (by simp [List.replicate_succ])
        rw [dropCopiesUpTo, copy]
        exact ih limit (Nat.le_of_succ_le_succ enough)
  refine all _ ?_
  have width := List.length_pos_iff.mpr nonempty
  rw [List.length_append, List.length_flatten, List.map_replicate,
    List.sum_replicate_nat]
  exact Nat.le_add_right_of_le (Nat.le_mul_of_pos_right count width)

theorem exists_dropCopies_encode (needle characters : List Char) :
    ∃ count rest, characters = (List.replicate count needle).flatten ++ rest ∧
      (encode characters).dropCopies (encode needle) = encode rest := by
  rw [dropCopies]
  generalize (encode characters).length = limit
  induction limit generalizing characters with
  | zero => exact ⟨0, characters, by simp, rfl⟩
  | succ limit ih =>
    rw [dropCopiesUpTo]
    cases copy : (encode characters).after? (encode needle) with
    | none => exact ⟨0, characters, by simp, rfl⟩
    | some bytes =>
      obtain ⟨rest, rfl, rfl⟩ := encode_eq_encode_append (after?_eq_some_iff.mp copy)
      obtain ⟨count, kept, rfl, dropped⟩ := ih rest
      exact ⟨count + 1, kept, by simp [List.replicate_succ], dropped⟩

section Cuts

variable {c : Char} {b : UInt8} (spelled : String.utf8EncodeChar c = [b]) (ascii : b.toNat < 0x80)
  (characters : List Char)

include spelled ascii

private theorem differs_of_mem_encode (free : c ∉ characters) :
    ∀ d ∈ encode characters, (d != b) = true := fun _ member =>
  bne_iff_ne.mpr fun same => free ((mem_encode_iff spelled ascii).mp (same ▸ member))

variable {characters}

theorem takeWhile_encode_append {front rest : List Char} (free : c ∉ front)
    (starts : ∀ d ∈ rest.head?, d = c) :
    (encode (front ++ rest)).takeWhile (· != b) = encode front := by
  have stops : (encode rest).takeWhile (· != b) = [] := by
    cases rest with
    | nil => rfl
    | cons d rest =>
      obtain rfl : d = c := starts d rfl
      simp [spelled]
  rw [encode_append, List.takeWhile_append_of_pos (differs_of_mem_encode spelled ascii front free),
    stops, List.append_nil]

theorem rtakeWhile_encode_append {front rest : List Char} (ends : ∀ d ∈ front.getLast?, d = c)
    (free : c ∉ rest) : (encode (front ++ rest)).rtakeWhile (· != b) = encode rest := by
  have differs := differs_of_mem_encode spelled ascii rest free
  have stops : (encode front).reverse.takeWhile (· != b) = [] := by
    rcases List.eq_nil_or_concat' front with rfl | ⟨others, d, rfl⟩
    · rfl
    · obtain rfl : d = c := ends d (by simp)
      simp [spelled]
  rw [encode_append, List.rtakeWhile, List.reverse_append,
    List.takeWhile_append_of_pos (by simpa using differs), stops, List.append_nil,
    List.reverse_reverse]

variable (characters)

/-- What stands in front of the first of an ASCII character. -/
theorem exists_takeWhile_encode : ∃ front rest, characters = front ++ rest ∧
    (∀ d ∈ rest.head?, d = c) ∧ (encode characters).takeWhile (· != b) = encode front := by
  by_cases member : c ∈ characters
  · obtain ⟨front, rest, rfl, free⟩ := List.eq_append_cons_of_mem member
    have starts : ∀ d ∈ (c :: rest).head?, d = c := by simp
    exact ⟨front, c :: rest, rfl, starts, takeWhile_encode_append spelled ascii free starts⟩
  · refine ⟨characters, [], by simp, by simp, ?_⟩
    simpa using takeWhile_encode_append spelled ascii member (by simp : ∀ d ∈ [].head?, d = c)

/-- What stands behind the last of an ASCII character. -/
theorem exists_rtakeWhile_encode : ∃ front rest, characters = front ++ rest ∧
    (∀ d ∈ front.getLast?, d = c) ∧ (encode characters).rtakeWhile (· != b) = encode rest := by
  by_cases member : c ∈ characters
  · obtain ⟨behind, front, shape, free⟩ :=
      List.eq_append_cons_of_mem (List.mem_reverse.mpr member)
    have last : characters = front.reverse ++ [c] ++ behind.reverse := by
      simpa using congrArg List.reverse shape
    have ends : ∀ d ∈ (front.reverse ++ [c]).getLast?, d = c := by simp
    refine ⟨front.reverse ++ [c], behind.reverse, last, ends, ?_⟩
    rw [last]
    exact rtakeWhile_encode_append spelled ascii ends (by simpa using free)
  · refine ⟨[], characters, rfl, by simp, ?_⟩
    exact rtakeWhile_encode_append spelled ascii (by simp : ∀ d ∈ [].getLast?, d = c) member

end Cuts

end Text

end BareComponent
