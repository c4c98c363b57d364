import BareComponent.Pattern.Search
import BareComponent.Proofs.Text.Encoding
import Mathlib.Tactic.IntervalCases

/-! # Patterns over characters

In a text in UTF-8 a pattern that starts between two characters stops between two characters, and
what it can match is told by the characters on both sides. For each way to build a pattern there
is a lemma here that says when a match is among its matches. A search steps from one character to
the next, and behind a match to where that match stops.
-/

namespace BareComponent

/-- White space belongs to no word. -/
theorem CharacterClass.word_of_blank {code : Nat} (blank : CharacterClass.blank code = true) :
    word code = false := by
  simp only [CharacterClass.blank, Bool.or_eq_true, Bool.and_eq_true, decide_eq_true_eq,
    beq_iff_eq] at blank
  rcases blank with (((((((((⟨low, high⟩ | rfl) | rfl) | rfl) | rfl) | ⟨low, high⟩) | rfl) | rfl) |
    rfl) | rfl) | rfl
  case inl.inl.inl.inl.inl.inl.inl.inl.inl.inl => interval_cases code <;> decide
  case inl.inl.inl.inl.inl.inr => interval_cases code <;> decide +kernel
  all_goals decide +kernel

theorem CharacterClass.wordOrDollar_of_blank {code : Nat} (blank : blank code = true) :
    wordOrDollar code = false := by
  have noDollar : ofByte (· == Byte.dollar) code = false := by
    rw [← Bool.not_eq_true]
    intro dollar
    simp only [ofByte, Bool.and_eq_true, decide_eq_true_eq, beq_iff_eq] at dollar
    obtain rfl : code = 0x24 := by
      have byte : code % 256 = 0x24 := congrArg UInt8.toNat dollar.2
      omega
    exact absurd blank (by decide)
  rw [wordOrDollar, or, word_of_blank blank, noDollar]
  rfl

/-- What begins a plain identifier continues an identifier of any script. -/
theorem CharacterClass.wordOrDollar_of_starts {code : Nat}
    (starts : ofByte Byte.startsIdentifier code = true) : wordOrDollar code = true := by
  simp only [ofByte, Byte.startsIdentifier, Bool.and_eq_true, Bool.or_eq_true, decide_eq_true_eq]
    at starts
  obtain ⟨ascii, (letter | underscore) | dollar⟩ := starts <;>
    simp_all [wordOrDollar, or, word, ofByte]

namespace Cursor

/-- The cursor between two runs of characters. -/
def between (before after : List Char) : Cursor := ⟨(Text.encode before).reverse, Text.encode after⟩

theorem ofText_encode (characters : List Char) :
    ofText (Text.encode characters) = between [] characters := rfl

@[simp] theorem between_after (before after : List Char) :
    (between before after).after = Text.encode after := rfl

@[simp] theorem position_between (before after : List Char) :
    (between before after).position = (Text.encode before).length := List.length_reverse

theorem advance_between (before first second : List Char) :
    (between before (first ++ second)).advance (Text.encode first).length =
      between (before ++ first) second := by
  simp [between, advance]

section Classes

variable (members : CharacterClass)

private theorem leadingWidth_cons (c : Char) (rest : List Char) :
    Text.leadingWidth members (Text.encode (c :: rest)) =
      if members c.toNat then (Text.encode [c]).length else 0 := by
  rw [Text.encode_cons, Text.leadingWidth_encode, Text.encode_cons, Text.encode_nil,
    List.append_nil]

private theorem advance_one (before : List Char) (c : Char) (rest : List Char) :
    (between before (c :: rest)).advance (Text.encode [c]).length =
      between (before ++ [c]) rest :=
  advance_between before [c] rest

theorem encode_singleton_pos (c : Char) : 0 < (Text.encode [c]).length := by
  rw [Text.encode_cons, Text.encode_nil, List.append_nil]
  exact List.length_pos_iff.mpr String.utf8EncodeChar_ne_nil

private theorem length_encode_cons (c : Char) (rest : List Char) :
    (Text.encode (c :: rest)).length = (Text.encode [c]).length + (Text.encode rest).length := by
  simp

private theorem skipUpTo_between (before after : List Char) {limit : Nat}
    (enough : (Text.encode after).length ≤ limit) :
    (between before after).skipUpTo members limit =
      between (before ++ after.takeWhile (members ·.toNat))
        (after.dropWhile (members ·.toNat)) := by
  induction after generalizing before limit with
  | nil => cases limit <;> simp [skipUpTo]
  | cons c rest ih =>
    obtain ⟨count, width⟩ := Nat.exists_eq_add_one.mpr (encode_singleton_pos c)
    rw [length_encode_cons] at enough
    cases limit with
    | zero => omega
    | succ limit =>
      rw [skipUpTo, between_after, leadingWidth_cons]
      by_cases member : members c.toNat
      · simp only [member, if_true, width, List.takeWhile_cons, List.dropWhile_cons]
        rw [← width, advance_one, ih _ (by omega)]
        simp
      · simp [member]

/-- Skipping a class goes over the characters of the class. -/
theorem skip_between (before after : List Char) :
    (between before after).skip members =
      between (before ++ after.takeWhile (members ·.toNat)) (after.dropWhile (members ·.toNat)) :=
  skipUpTo_between members before after (Nat.le_refl _)

private theorem mem_passing_between {before after : List Char} {cursor : Cursor} {limit : Nat}
    (enough : (Text.encode after).length ≤ limit) :
    cursor ∈ (between before after).passing members limit ↔
      ∃ first second, after = first ++ second ∧ (∀ c ∈ first, members c.toNat = true) ∧
        cursor = between (before ++ first) second := by
  induction after generalizing before limit with
  | nil => cases limit <;> simp [passing]
  | cons c rest ih =>
    obtain ⟨count, width⟩ := Nat.exists_eq_add_one.mpr (encode_singleton_pos c)
    rw [length_encode_cons] at enough
    cases limit with
    | zero => omega
    | succ limit =>
      have stays : cursor = between before (c :: rest) ↔
          cursor = between (before ++ []) (c :: rest) := by rw [List.append_nil]
      rw [passing, between_after, leadingWidth_cons]
      by_cases member : members c.toNat
      · simp only [member, if_true, width, List.mem_cons]
        rw [← width, advance_one, ih (by omega)]
        constructor
        · rintro (here | ⟨first, second, rfl, all, rfl⟩)
          · exact ⟨[], c :: rest, rfl, by simp, stays.mp here⟩
          · exact ⟨c :: first, second, rfl, by simpa [member] using all, by simp⟩
        · rintro ⟨first, second, split, all, rfl⟩
          cases first with
          | nil => exact .inl (by rw [List.append_nil, split, List.nil_append])
          | cons d first =>
            obtain ⟨rfl, rfl⟩ := List.cons.inj split
            exact .inr ⟨first, second, rfl, fun e later => all e (List.mem_cons_of_mem _ later),
              by simp⟩
      · simp only [member, Bool.false_eq_true, if_false, List.mem_singleton]
        constructor
        · exact fun here => ⟨[], c :: rest, rfl, by simp, stays.mp here⟩
        · rintro ⟨first, second, split, all, rfl⟩
          cases first with
          | nil => rw [List.append_nil, split, List.nil_append]
          | cons d first =>
            obtain ⟨rfl, -⟩ := List.cons.inj split
            exact absurd (all c List.mem_cons_self) member

theorem mem_within_between {before after : List Char} {cursor : Cursor} :
    cursor ∈ (between before after).within members ↔
      ∃ first second, after = first ++ second ∧ (∀ c ∈ first, members c.toNat = true) ∧
        cursor = between (before ++ first) second :=
  mem_passing_between members (Nat.le_refl _)

end Classes

end Cursor

namespace Pattern

open Cursor

variable {α β : Type} {before after : List Char} {cursor : Cursor}

@[simp] theorem mem_pure {value other : α} {start : Cursor} :
    (other, cursor) ∈ (pure value : Pattern α) start ↔ other = value ∧ cursor = start := by
  simp [pure]

/-- What a pattern and another behind it take. -/
theorem mem_bind {pattern : Pattern α} {next : α → Pattern β} {value : β} {start : Cursor} :
    (value, cursor) ∈ (pattern >>= next) start ↔
      ∃ first middle, (first, middle) ∈ pattern start ∧ (value, cursor) ∈ next first middle := by
  simp [bind]

theorem mem_orElse {first second : Pattern α} {value : α} {start : Cursor} :
    (value, cursor) ∈ (first <|> second) start ↔
      (value, cursor) ∈ first start ∨ (value, cursor) ∈ second start := by
  exact List.mem_append

/-- What a pattern that may be left out takes. -/
theorem mem_optional {pattern : Pattern α} {value : Option α} {start : Cursor} :
    (value, cursor) ∈ optional pattern start ↔
      (∃ read, value = some read ∧ (read, cursor) ∈ pattern start) ∨
        value = none ∧ cursor = start := by
  simp only [optional, List.mem_append, List.mem_map, List.mem_singleton, Prod.mk.injEq,
    Prod.exists]
  grind

theorem mem_spanned {pattern : Pattern Unit} {span : Span} {start : Cursor} :
    (span, cursor) ∈ spanned pattern start ↔
      ((), cursor) ∈ pattern start ∧ span = ⟨start.position, cursor.position⟩ := by
  simp only [spanned, List.mem_map, Prod.mk.injEq, Prod.exists]
  grind

theorem mem_check {holds : Cursor → Bool} {value : Unit} {start : Cursor} :
    (value, cursor) ∈ check holds start ↔ holds start = true ∧ cursor = start := by
  simp only [check]
  split <;> simp_all

/-- A literal takes its own characters. -/
theorem mem_literal {needle : List Char} {value : Unit} :
    (value, cursor) ∈ literal (Text.encode needle) (between before after) ↔
      ∃ rest, after = needle ++ rest ∧ cursor = between (before ++ needle) rest := by
  unfold literal
  by_cases starts : (between before after).after.startsWith (Text.encode needle) = true
  · rw [if_pos starts]
    obtain ⟨bytes, split⟩ := Text.startsWith_iff.mp starts
    obtain ⟨rest, rfl, -⟩ := Text.encode_eq_encode_append split
    simp [advance_between]
  · rw [if_neg starts]
    simp only [List.not_mem_nil, false_iff]
    rintro ⟨rest, rfl, -⟩
    exact starts (Text.startsWith_iff.mpr ⟨Text.encode rest, Text.encode_append needle rest⟩)

theorem literal_between (before needle rest : List Char) :
    literal (Text.encode needle) (between before (needle ++ rest)) =
      [((), between (before ++ needle) rest)] := by
  have starts : (between before (needle ++ rest)).after.startsWith (Text.encode needle) = true :=
    Text.startsWith_iff.mpr ⟨Text.encode rest, Text.encode_append needle rest⟩
  rw [literal, if_pos starts, advance_between]

theorem literal_mem (before needle rest : List Char) :
    ((), between (before ++ needle) rest) ∈
      literal (Text.encode needle) (between before (needle ++ rest)) :=
  mem_literal.mpr ⟨rest, rfl, rfl⟩

theorem exists_of_mem_literal {c : Char} {needle : Text} {value : Unit}
    (spelled : needle = Text.encode [c])
    (member : (value, cursor) ∈ literal needle (between before after)) :
    ∃ rest, after = c :: rest ∧ cursor = between (before ++ [c]) rest := by
  subst spelled
  exact mem_literal.mp member

/-- A run takes all characters of its class that stand there. -/
theorem mem_run {members : CharacterClass} {value : Unit} :
    (value, cursor) ∈ run members (between before after) ↔
      ∃ first second, after = first ++ second ∧ (∀ c ∈ first, members c.toNat = true) ∧
        (∀ c ∈ second.head?, members c.toNat = false) ∧
        cursor = between (before ++ first) second := by
  simp only [run, List.mem_singleton, Prod.mk.injEq, true_and, skip_between]
  constructor
  · rintro rfl
    refine ⟨_, _, List.takeWhile_append_dropWhile.symm, fun c => List.mem_takeWhile_imp,
      fun c first => ?_, rfl⟩
    simpa [Option.mem_def.mp first] using
      List.head?_dropWhile_not (fun c : Char => members c.toNat) after
  · rintro ⟨first, second, rfl, inside, outside, rfl⟩
    have stops : second.takeWhile (members ·.toNat) = [] ∧
        second.dropWhile (members ·.toNat) = second := by
      cases second with
      | nil => simp
      | cons c rest => simp [outside c rfl]
    rw [List.takeWhile_append_of_pos inside, List.dropWhile_append_of_pos inside, stops.1, stops.2,
      List.append_nil]

/-- What stands for many characters takes any number of them. -/
theorem mem_many {members : CharacterClass} {value : Unit} :
    (value, cursor) ∈ many members (between before after) ↔
      ∃ first second, after = first ++ second ∧ (∀ c ∈ first, members c.toNat = true) ∧
        cursor = between (before ++ first) second := by
  simp [many, mem_within_between]

theorem mem_fewest {members : CharacterClass} {value : Unit} :
    (value, cursor) ∈ fewest members (between before after) ↔
      ∃ first second, after = first ++ second ∧ (∀ c ∈ first, members c.toNat = true) ∧
        cursor = between (before ++ first) second := by
  simp [fewest, mem_within_between]

theorem character_between (members : CharacterClass) (before : List Char) (c : Char)
    (rest : List Char) : character members (between before (c :: rest)) =
      if members c.toNat then [((), between (before ++ [c]) rest)] else [] := by
  obtain ⟨count, width⟩ := Nat.exists_eq_add_one.mpr (encode_singleton_pos c)
  rw [character, between_after, leadingWidth_cons]
  by_cases member : members c.toNat
  · simp only [member, if_true, width]
    rw [← width, advance_one]
  · simp [member]

theorem mem_character {members : CharacterClass} {value : Unit} :
    (value, cursor) ∈ character members (between before after) ↔
      ∃ c rest, after = c :: rest ∧ members c.toNat = true ∧
        cursor = between (before ++ [c]) rest := by
  cases after with
  | nil => simp [character]
  | cons c rest =>
    rw [character_between]
    by_cases member : members c.toNat <;> simp [member]

theorem mem_many1 {members : CharacterClass} {value : Unit} :
    (value, cursor) ∈ many1 members (between before after) ↔
      ∃ first second, after = first ++ second ∧ first ≠ [] ∧
        (∀ c ∈ first, members c.toNat = true) ∧ cursor = between (before ++ first) second := by
  simp only [many1, mem_bind, mem_character]
  constructor
  · rintro ⟨_, _, ⟨c, _, rfl, member, rfl⟩, others⟩
    obtain ⟨first, second, rfl, inside, rfl⟩ := mem_many.mp others
    exact ⟨c :: first, second, rfl, by simp, List.forall_mem_cons.mpr ⟨member, inside⟩, by simp⟩
  · rintro ⟨first, second, rfl, nonempty, inside, rfl⟩
    obtain ⟨c, first, rfl⟩ := List.exists_cons_of_ne_nil nonempty
    obtain ⟨member, inside⟩ := List.forall_mem_cons.mp inside
    exact ⟨(), _, ⟨c, first ++ second, rfl, member, rfl⟩,
      mem_many.mpr ⟨first, second, rfl, inside, by simp⟩⟩

theorem mem_run1 {members : CharacterClass} {value : Unit} :
    (value, cursor) ∈ run1 members (between before after) ↔
      ∃ first second, after = first ++ second ∧ first ≠ [] ∧
        (∀ c ∈ first, members c.toNat = true) ∧ (∀ c ∈ second.head?, members c.toNat = false) ∧
        cursor = between (before ++ first) second := by
  simp only [run1, mem_bind, mem_character]
  constructor
  · rintro ⟨_, _, ⟨c, _, rfl, member, rfl⟩, others⟩
    obtain ⟨first, second, rfl, inside, outside, rfl⟩ := mem_run.mp others
    exact ⟨c :: first, second, rfl, by simp, List.forall_mem_cons.mpr ⟨member, inside⟩, outside,
      by simp⟩
  · rintro ⟨first, second, rfl, nonempty, inside, outside, rfl⟩
    obtain ⟨c, first, rfl⟩ := List.exists_cons_of_ne_nil nonempty
    obtain ⟨member, inside⟩ := List.forall_mem_cons.mp inside
    exact ⟨(), _, ⟨c, first ++ second, rfl, member, rfl⟩,
      mem_run.mpr ⟨first, second, rfl, inside, outside, by simp⟩⟩

theorem mem_oneOf {texts : List Text} {value : Unit} {start : Cursor} :
    (value, cursor) ∈ oneOf texts start ↔
      ∃ text ∈ texts, (value, cursor) ∈ literal text start := by
  simp [oneOf]

theorem mem_textEnd {value : Unit} :
    (value, cursor) ∈ textEnd (between before after) ↔ after = [] ∧ cursor = between before [] := by
  simp only [textEnd, mem_check, between_after, List.isEmpty_iff]
  constructor
  · rintro ⟨nothing, rfl⟩
    obtain rfl := Text.eq_nil_of_encode nothing
    exact ⟨rfl, rfl⟩
  · rintro ⟨rfl, rfl⟩
    exact ⟨rfl, rfl⟩

theorem mem_lineStart {value : Unit} :
    (value, cursor) ∈ lineStart (between before after) ↔
      (∀ c, before.getLast? = some c → c = '\n') ∧ cursor = between before after := by
  simp only [lineStart, mem_check]
  refine and_congr_left fun _ => ?_
  rcases List.eq_nil_or_concat' before with rfl | ⟨front, c, rfl⟩
  · simp [between]
  · obtain ⟨bytes, last, shape⟩ : ∃ bytes last, String.utf8EncodeChar c = bytes ++ [last] :=
      (List.eq_nil_or_concat' _).resolve_left String.utf8EncodeChar_ne_nil
    have lastEq : last = Byte.newline ↔ c = '\n' := by
      constructor
      · rintro rfl
        have code := (Text.encodeChar_eq_singleton (c := c) (b := Byte.newline)
          (by simp [shape]) (by decide)).2
        exact Char.ext (UInt32.toNat_inj.mp code)
      · rintro rfl
        have same : ([] ++ [Byte.newline] : Text) = bytes ++ [last] := shape
        exact (List.cons.inj (List.append_inj_right' same rfl)).1.symm
    simp [between, shape, lastEq]

/-- Whether there is a character and it is a word character. -/
def isWord (c? : Option Char) : Bool := c?.any (CharacterClass.word ·.toNat)

private theorem leadingWidth_word (after : List Char) :
    (Text.leadingWidth CharacterClass.word (Text.encode after) != 0) = isWord after.head? := by
  cases after with
  | nil => rfl
  | cons c rest =>
    have positive := Char.utf8Size_pos c
    rw [Text.encode_cons, Text.leadingWidth_encode]
    by_cases member : CharacterClass.word c.toNat <;> simp [isWord, member]
    omega

private theorem trailingWidth_word (before : List Char) :
    (Text.trailingWidth CharacterClass.word (Text.encode before).reverse != 0) =
      isWord before.getLast? := by
  rcases List.eq_nil_or_concat' before with rfl | ⟨front, c, rfl⟩
  · rfl
  · have positive := Char.utf8Size_pos c
    have shape : (Text.encode (front ++ [c])).reverse =
        (String.utf8EncodeChar c).reverse ++ (Text.encode front).reverse := by simp
    rw [shape, Text.trailingWidth_encode]
    by_cases member : CharacterClass.word c.toNat <;> simp [isWord, member]
    omega

/-- A word boundary stands between a character of a word and one that is none. -/
theorem mem_wordBoundary {value : Unit} :
    (value, cursor) ∈ wordBoundary (between before after) ↔
      isWord before.getLast? ≠ isWord after.head? ∧ cursor = between before after := by
  simp only [wordBoundary, mem_check, between, leadingWidth_word, trailingWidth_word, bne_iff_ne]

theorem wordBoundary_between (before after : List Char) : wordBoundary (between before after) =
    if isWord before.getLast? ≠ isWord after.head? then [((), between before after)] else [] := by
  simp only [wordBoundary, check, between, leadingWidth_word, trailingWidth_word, bne_iff_ne]

section Search

variable (pattern : Pattern α)

/-- The matches in some characters that others stand in front of. -/
def searchBehind (before after : List Char) : List (Match α) :=
  searchFrom pattern 0 (Text.encode before).reverse (Text.encode after)

theorem search_encode (characters : List Char) :
    search pattern (Text.encode characters) = searchBehind pattern [] characters := rfl

@[simp] theorem searchBehind_nil (before : List Char) : searchBehind pattern before [] = [] := rfl

private theorem searchFrom_skip (before first second : Text) :
    searchFrom pattern first.length before (first ++ second) =
      searchFrom pattern 0 (first.reverse ++ before) second := by
  induction first generalizing before with
  | nil => rfl
  | cons b rest ih => simp [searchFrom, ih]

private theorem searchFrom_continuing (before second : Text) {first : Text}
    (continues : ∀ b ∈ first, Byte.continuesCharacter b = true) :
    searchFrom pattern 0 before (first ++ second) =
      searchFrom pattern 0 (first.reverse ++ before) second := by
  induction first generalizing before with
  | nil => rfl
  | cons b rest ih =>
    rw [List.cons_append, searchFrom, if_pos (continues b List.mem_cons_self),
      ih _ fun other member => continues other (List.mem_cons_of_mem _ member)]
    simp

variable {pattern}

/-- A pattern without a way on does not match. -/
theorem matchAt?_eq_none {start : Cursor}
    (fails : ∀ value cursor, (value, cursor) ∉ pattern start) : matchAt? pattern start = none := by
  have nothing : pattern start = [] := List.eq_nil_iff_forall_not_mem.mpr fun ⟨value, cursor⟩ =>
    fails value cursor
  rw [matchAt?, nothing]

/-- Where all ways to match stop at one place, the match stops there. -/
theorem matchAt?_eq_some {before first rest : List Char} {value : α} (nonempty : first ≠ [])
    (matched : (value, between (before ++ first) rest) ∈ pattern (between before (first ++ rest)))
    (all : ∀ other cursor, (other, cursor) ∈ pattern (between before (first ++ rest)) →
      cursor = between (before ++ first) rest) :
    ∃ preferred, matchAt? pattern (between before (first ++ rest)) =
      some ⟨⟨(Text.encode before).length, (Text.encode (before ++ first)).length⟩, preferred⟩ := by
  cases shape : pattern (between before (first ++ rest)) with
  | nil => simp [shape] at matched
  | cons head others =>
    obtain ⟨preferred, cursor⟩ := head
    obtain rfl := all preferred cursor (by simp [shape])
    obtain ⟨c, first, rfl⟩ := List.exists_cons_of_ne_nil nonempty
    refine ⟨preferred, ?_⟩
    have forward : (Text.encode before).length < (Text.encode (before ++ c :: first)).length := by
      have := Char.utf8Size_pos c
      simp
      omega
    simp only [matchAt?, shape, position_between, if_pos forward]

/-- Where nothing matches, a search goes on behind the next character. -/
theorem searchBehind_of_none {before rest : List Char} {c : Char}
    (fails : matchAt? pattern (between before (c :: rest)) = none) :
    searchBehind pattern before (c :: rest) = searchBehind pattern (before ++ [c]) rest := by
  obtain ⟨lead, tail, shape, starts, continues, -⟩ := Text.encodeChar_eq_cons c
  have cursorEq : (⟨(Text.encode before).reverse, lead :: (tail ++ Text.encode rest)⟩ : Cursor) =
      between before (c :: rest) := by simp [between, shape]
  rw [searchBehind, Text.encode_cons, shape, List.cons_append, searchFrom, starts,
    if_neg Bool.false_ne_true, cursorEq, fails]
  simp only
  rw [searchFrom_continuing pattern _ _ continues, searchBehind]
  simp [shape]

/-- Where something matches, a search goes on behind it. -/
theorem searchBehind_of_some {before first rest : List Char} {value : α}
    (found : matchAt? pattern (between before (first ++ rest)) =
      some ⟨⟨(Text.encode before).length, (Text.encode (before ++ first)).length⟩, value⟩)
    (nonempty : first ≠ []) :
    searchBehind pattern before (first ++ rest) =
      ⟨⟨(Text.encode before).length, (Text.encode (before ++ first)).length⟩, value⟩ ::
        searchBehind pattern (before ++ first) rest := by
  obtain ⟨c, first, rfl⟩ := List.exists_cons_of_ne_nil nonempty
  obtain ⟨lead, tail, shape, starts, -, -⟩ := Text.encodeChar_eq_cons c
  have cursorEq : (⟨(Text.encode before).reverse,
      lead :: (tail ++ Text.encode first ++ Text.encode rest)⟩ : Cursor) =
      between before (c :: first ++ rest) := by simp [between, shape]
  have width : (Text.encode (before ++ c :: first)).length - (Text.encode before).length - 1 =
      (tail ++ Text.encode first).length := by
    have := congrArg List.length shape
    simp at this ⊢
    omega
  rw [searchBehind, Text.encode_append (c :: first) rest, Text.encode_cons, shape,
    List.cons_append, List.cons_append, searchFrom, starts, if_neg Bool.false_ne_true, cursorEq,
    found]
  simp only
  rw [width, searchFrom_skip, searchBehind]
  simp [shape]

/-- What matches where a search begins is found first. -/
theorem head?_searchBehind {before rest : List Char} {c : Char} {found : Match α}
    (here : matchAt? pattern (between before (c :: rest)) = some found) :
    (searchBehind pattern before (c :: rest)).head? = some found := by
  obtain ⟨lead, tail, shape, starts, -⟩ := Text.encodeChar_eq_cons c
  have cursorEq : (⟨(Text.encode before).reverse, lead :: (tail ++ Text.encode rest)⟩ : Cursor) =
      between before (c :: rest) := by simp [between, shape]
  rw [searchBehind, Text.encode_cons, shape, List.cons_append, searchFrom, starts,
    if_neg Bool.false_ne_true, cursorEq, here]
  rfl

end Search

end Pattern

end BareComponent
