import BareComponent.Proofs.Pattern.Found
import BareComponent.Proofs.Text.Boundary

/-! # What the matches of a pattern have in common

A pattern that starts between two characters of a string stops between two of its characters, and
what it reads on the way are stretches of whole characters. There is a rule for each part that a
pattern is built from, so what the pattern ensures is put together as the pattern is. A search
passes what is ensured on to all that it finds.
-/

namespace BareComponent

/-- A text stands where it is found. -/
theorem Text.getElem?_of_indexOf? {text needle : Text} {b : UInt8} {count : Nat}
    (found : text.indexOf? (b :: needle) = some count) : text[count]? = some b := by
  induction text generalizing count with
  | nil => simp [indexOf?] at found
  | cons c rest ih =>
    rw [indexOf?] at found
    split at found
    · next starts =>
      obtain rfl := Option.some.inj found
      obtain ⟨behind, split⟩ := startsWith_iff.mp starts
      simp [split]
    · obtain ⟨count, later, rfl⟩ := Option.map_eq_some_iff.mp found
      exact ih later

theorem Text.getElem?_of_lastIndexOf? {text needle : Text} {b : UInt8} {count : Nat}
    (found : text.lastIndexOf? (b :: needle) = some count) : text[count]? = some b := by
  induction text generalizing count with
  | nil => simp [lastIndexOf?] at found
  | cons c rest ih =>
    rw [lastIndexOf?] at found
    split at found
    · next offset later =>
      obtain rfl := Option.some.inj found
      exact ih later
    · split at found
      · next starts =>
        obtain rfl := Option.some.inj found
        obtain ⟨behind, split⟩ := startsWith_iff.mp starts
        simp [split]
      · contradiction

namespace Pattern

open Cursor Text

variable {α β : Type} {characters : List Char}

/-- What reads up to a text that begins with an ASCII byte stops where that text is found first. -/
theorem mem_upTo {b : UInt8} {closing : Text} (ascii : b.toNat < 0x80)
    {before after : List Char} {value : Unit} {next : Cursor} :
    (value, next) ∈ upTo (b :: closing) (between before after) ↔
      ∃ passed rest, after = passed ++ rest ∧
        (encode after).indexOf? (b :: closing) = some (encode passed).length ∧
          next = between (before ++ passed) rest := by
  rw [upTo, between_after]
  constructor
  · intro member
    cases found : (encode after).indexOf? (b :: closing) with
    | none => simp [found] at member
    | some count =>
      obtain rfl : next = (between before after).advance count := by simpa [found] using member
      have here := getElem?_of_indexOf? found
      obtain ⟨passed, rest, rfl, rfl⟩ :=
        (isBoundary_of_ascii ⟨after, rfl⟩ here ascii).1.exists_append
      exact ⟨passed, rest, rfl, rfl, advance_between ..⟩
  · rintro ⟨passed, rest, rfl, found, rfl⟩
    simp only [found, advance_between, List.mem_singleton]

/-- Whether every match that starts between two characters stops at or behind its start between two
characters, with a value that has some property. -/
def Ensures (characters : List Char) (pattern : Pattern α) (property : α → Prop) : Prop :=
  ∀ before after, before ++ after = characters → ∀ value next,
    (value, next) ∈ pattern (between before after) →
      property value ∧
        ∃ passed rest, after = passed ++ rest ∧ next = between (before ++ passed) rest

/-- Whether every match that starts between two characters stops between two characters. -/
def Steps (characters : List Char) (pattern : Pattern α) : Prop :=
  Ensures characters pattern fun _ => True

namespace Ensures

theorem pure {property : α → Prop} {value : α} (holds : property value) :
    Ensures characters (Pure.pure value) property := by
  rintro before after - other next member
  obtain ⟨rfl, rfl⟩ := mem_pure.mp member
  exact ⟨holds, [], after, rfl, by rw [List.append_nil]⟩

/-- What the second pattern ensures holds of both, one behind the other. -/
theorem bind {pattern : Pattern α} {next : α → Pattern β} {first : α → Prop}
    {property : β → Prop} (ensures : Ensures characters pattern first)
    (others : ∀ value, first value → Ensures characters (next value) property) :
    Ensures characters (pattern >>= next) property := by
  intro before after whole value cursor member
  obtain ⟨read, middle, here, behind⟩ := mem_bind.mp member
  obtain ⟨holds, passed, rest, rfl, rfl⟩ := ensures before after whole read middle here
  obtain ⟨final, more, tail, rfl, rfl⟩ :=
    others read holds (before ++ passed) rest (by rw [List.append_assoc, whole]) value cursor behind
  exact ⟨final, passed ++ more, tail, by rw [List.append_assoc], by rw [List.append_assoc]⟩

theorem steps {pattern : Pattern α} {property : α → Prop}
    (ensures : Ensures characters pattern property) : Steps characters pattern :=
  fun before after whole value next member =>
    ⟨trivial, (ensures before after whole value next member).2⟩

end Ensures

namespace Steps

theorem bind {pattern : Pattern α} {next : α → Pattern β} {property : β → Prop}
    (steps : Steps characters pattern)
    (others : ∀ value, Ensures characters (next value) property) :
    Ensures characters (pattern >>= next) property :=
  Ensures.bind steps fun value _ => others value

theorem optional {pattern : Pattern α} (steps : Steps characters pattern) :
    Steps characters (optional pattern) := by
  intro before after whole value next member
  rcases mem_optional.mp member with ⟨read, -, here⟩ | ⟨-, rfl⟩
  · exact steps before after whole read next here
  · exact ⟨trivial, [], after, rfl, by rw [List.append_nil]⟩

/-- What a pattern passes is a stretch of whole characters. -/
theorem spanned {pattern : Pattern Unit} (steps : Steps characters pattern) :
    Ensures characters (spanned pattern) (encode characters).IsWhole := by
  rintro before after rfl span next member
  obtain ⟨here, rfl⟩ := mem_spanned.mp member
  obtain ⟨-, passed, rest, rfl, rfl⟩ := steps before after rfl () next here
  refine ⟨?_, passed, rest, rfl, rfl⟩
  have starts := isBoundary_encode before (passed ++ rest)
  have stops := isBoundary_encode (before ++ passed) rest
  rw [List.append_assoc] at stops
  rw [position_between, position_between]
  exact starts.isWhole stops (by simp)

theorem check (holds : Cursor → Bool) : Steps characters (check holds) := by
  rintro before after - value next member
  obtain ⟨-, rfl⟩ := mem_check.mp member
  exact ⟨trivial, [], after, rfl, by rw [List.append_nil]⟩

theorem literal {needle : Text} (string : IsString needle) :
    Steps characters (literal needle) := by
  rintro before after - value next member
  obtain ⟨needle, rfl⟩ := string
  obtain ⟨rest, rfl, rfl⟩ := mem_literal.mp member
  exact ⟨trivial, needle, rest, rfl, rfl⟩

theorem oneOf {needles : List Text} (strings : ∀ needle ∈ needles, IsString needle) :
    Steps characters (oneOf needles) := by
  intro before after whole value next member
  obtain ⟨needle, inside, here⟩ := mem_oneOf.mp member
  exact literal (strings needle inside) before after whole value next here

theorem character (members : CharacterClass) : Steps characters (character members) := by
  rintro before after - value next member
  obtain ⟨c, rest, rfl, -, rfl⟩ := mem_character.mp member
  exact ⟨trivial, [c], rest, rfl, rfl⟩

theorem run (members : CharacterClass) : Steps characters (run members) := by
  rintro before after - value next member
  obtain ⟨passed, rest, rfl, -, -, rfl⟩ := mem_run.mp member
  exact ⟨trivial, passed, rest, rfl, rfl⟩

theorem many (members : CharacterClass) : Steps characters (many members) := by
  rintro before after - value next member
  obtain ⟨passed, rest, rfl, -, rfl⟩ := mem_many.mp member
  exact ⟨trivial, passed, rest, rfl, rfl⟩

theorem fewest (members : CharacterClass) : Steps characters (fewest members) := by
  rintro before after - value next member
  obtain ⟨passed, rest, rfl, -, rfl⟩ := mem_fewest.mp member
  exact ⟨trivial, passed, rest, rfl, rfl⟩

theorem many1 (members : CharacterClass) : Steps characters (many1 members) :=
  (character members).bind fun _ => many members

theorem run1 (members : CharacterClass) : Steps characters (run1 members) :=
  (character members).bind fun _ => run members

theorem name : Steps characters name := (character _).bind fun _ => run _

theorem upTo {b : UInt8} {closing : Text} (ascii : b.toNat < 0x80) :
    Steps characters (upTo (b :: closing)) := by
  rintro before after - value next member
  obtain ⟨passed, rest, rfl, -, rfl⟩ := (mem_upTo ascii).mp member
  exact ⟨trivial, passed, rest, rfl, rfl⟩

end Steps

section Searches

variable {pattern : Pattern α} {property : α → Prop} {found : Match α}

/-- What is found takes whole characters, at least one, and has the property that is ensured. -/
theorem Ensures.search (ensures : Ensures characters pattern property)
    (member : found ∈ search pattern (encode characters)) :
    property found.value ∧ (encode characters).IsWhole found.span ∧
      found.span.start < found.span.stop := by
  obtain ⟨before, after, rfl, here⟩ := exists_of_mem_search member
  obtain ⟨next, matched, span, forward⟩ := exists_of_matchAt? here
  obtain ⟨holds, passed, rest, rfl, rfl⟩ := ensures before after rfl found.value next matched
  have starts := isBoundary_encode before (passed ++ rest)
  have stops := isBoundary_encode (before ++ passed) rest
  rw [List.append_assoc] at stops
  rw [position_between, position_between] at *
  rw [span]
  exact ⟨holds, starts.isWhole stops forward.le, forward⟩

private theorem Steps.searchBehind_of_matchAt? (steps : Steps characters pattern)
    {before rest : List Char} (whole : before ++ rest = characters)
    (here : matchAt? pattern (between before rest) = some found) :
    ∃ passed tail, rest = passed ++ tail ∧ passed ≠ [] ∧
      found.span = ⟨(encode before).length, (encode (before ++ passed)).length⟩ ∧
      searchBehind pattern before rest = found :: searchBehind pattern (before ++ passed) tail := by
  obtain ⟨next, matched, span, forward⟩ := exists_of_matchAt? here
  obtain ⟨-, passed, tail, rfl, rfl⟩ := steps before rest whole found.value next matched
  rw [position_between, position_between] at span forward
  have nonempty : passed ≠ [] := by
    rintro rfl
    simp at forward
  have shape : found = ⟨⟨(encode before).length, (encode (before ++ passed)).length⟩,
      found.value⟩ := by rw [← span]
  rw [shape] at here
  refine ⟨passed, tail, rfl, nonempty, span, ?_⟩
  rw [searchBehind_of_some here nonempty, ← shape]

private theorem Steps.searchBehind_rising (steps : Steps characters pattern)
    {before after : List Char} (whole : before ++ after = characters) :
    (searchBehind pattern before after).Pairwise (·.span.stop ≤ ·.span.start) ∧
      ∀ found ∈ searchBehind pattern before after, (encode before).length ≤ found.span.start := by
  induction size : after.length using Nat.strongRecOn generalizing before after with
  | ind size ih =>
    subst size
    cases after with
    | nil => simp
    | cons c rest =>
      cases here : matchAt? pattern (between before (c :: rest)) with
      | none =>
        rw [searchBehind_of_none here]
        obtain ⟨rising, behind⟩ := @ih rest.length (by simp) (before ++ [c]) rest
          (by simpa using whole) rfl
        refine ⟨rising, fun found member => ?_⟩
        have := behind found member
        rw [encode_append, List.length_append] at this
        omega
      | some found =>
        obtain ⟨passed, tail, split, nonempty, span, search⟩ :=
          steps.searchBehind_of_matchAt? whole here
        rw [split] at whole
        rw [search]
        have shorter : tail.length < (c :: rest).length := by
          rw [split, List.length_append]
          have := List.length_pos_iff.mpr nonempty
          omega
        obtain ⟨rising, behind⟩ := @ih tail.length shorter (before ++ passed) tail
          (by simpa using whole) rfl
        have stops : found.span.stop = (encode (before ++ passed)).length :=
          congrArg Span.stop span
        rw [← stops] at behind
        have starts : (encode before).length = found.span.start := congrArg Span.start span.symm
        have forward : (encode before).length ≤ found.span.stop := by
          rw [stops, encode_append, List.length_append]
          exact Nat.le_add_right _ _
        refine ⟨.cons behind rising, fun other member => ?_⟩
        rcases List.mem_cons.mp member with rfl | later
        · exact starts.le
        · exact forward.trans (behind other later)

/-- What is found later stands behind what is found first. -/
theorem Steps.pairwise_search (steps : Steps characters pattern) :
    (Pattern.search pattern (encode characters)).Pairwise (·.span.stop ≤ ·.span.start) :=
  (steps.searchBehind_rising (List.nil_append characters)).1

/-- What is found in front of a match ends in front of it. -/
theorem Steps.stop_le_start {other : Match α} (steps : Steps characters pattern)
    (member : found ∈ Pattern.search pattern (encode characters))
    (otherMember : other ∈ Pattern.search pattern (encode characters))
    (earlier : other.span.start < found.span.start) : other.span.stop ≤ found.span.start := by
  let inFront (first second : Match α) : Prop :=
    first.span.start < second.span.start → first.span.stop ≤ second.span.start
  have rising : (Pattern.search pattern (encode characters)).Pairwise inFront := by
    refine steps.pairwise_search.imp ?_
    exact fun order _ => order
  have backwards : (Pattern.search pattern (encode characters)).Pairwise (flip inFront) :=
    steps.pairwise_search.imp_of_mem fun {first second} inside _ order before => by
      have := (Ensures.search steps inside).2.2
      omega
  exact rising.forall_of_forall_of_flip (fun _ _ same => absurd same (Nat.lt_irrefl _)) backwards
    otherMember member earlier

private theorem filter_key_eq {items : List α} {item : α} (key : α → Nat)
    (rising : items.Pairwise (key · < key ·)) (member : item ∈ items) :
    items.filter (key · == key item) = [item] := by
  induction items with
  | nil => exact absurd member List.not_mem_nil
  | cons first items ih =>
    obtain ⟨least, others⟩ := List.pairwise_cons.mp rising
    rcases List.mem_cons.mp member with rfl | later
    · have nothing : items.filter (key · == key item) = [] := by
        refine List.filter_eq_nil_iff.mpr fun other inside => ?_
        simpa using Nat.ne_of_gt (least other inside)
      rw [List.filter_cons, if_pos (by simp), nothing]
    · have apart := Nat.ne_of_lt (least item later)
      rw [List.filter_cons, if_neg (by simpa using apart), ih others later]

/-- At most one match begins at a place. -/
theorem Steps.filter_search (steps : Steps characters pattern)
    (member : found ∈ Pattern.search pattern (encode characters)) :
    (Pattern.search pattern (encode characters)).filter (·.span.start == found.span.start) =
      [found] := by
  refine filter_key_eq (·.span.start) ?_ member
  exact steps.pairwise_search.imp_of_mem fun {first second} inside _ order =>
    Nat.lt_of_lt_of_le (Ensures.search steps inside).2.2 order

/-- At most one match ends at a place. -/
theorem Steps.eq_of_stop {other : Match α} (steps : Steps characters pattern)
    (member : found ∈ Pattern.search pattern (encode characters))
    (otherMember : other ∈ Pattern.search pattern (encode characters))
    (same : found.span.stop = other.span.stop) : found = other := by
  have rising := steps.pairwise_search.imp_of_mem (S := (·.span.stop < ·.span.stop))
    fun {first second} _ inside order =>
      Nat.lt_of_le_of_lt order (Ensures.search steps inside).2.2
  have alone := filter_key_eq (·.span.stop) rising member
  have inside : other ∈ (Pattern.search pattern (encode characters)).filter
      (·.span.stop == found.span.stop) := List.mem_filter.mpr ⟨otherMember, by simp [same]⟩
  rw [alone] at inside
  exact (List.mem_singleton.mp inside).symm

private theorem Steps.exists_covering_behind (steps : Steps characters pattern)
    {front before rest : List Char} (whole : front ++ (before ++ rest) = characters)
    (here : matchAt? pattern (between (front ++ before) rest) = some found) :
    ∃ other ∈ searchBehind pattern front (before ++ rest),
      other.span.start ≤ (encode (front ++ before)).length ∧
        (encode (front ++ before)).length < other.span.stop := by
  induction size : before.length using Nat.strongRecOn generalizing front before with
  | ind size ih =>
    subst size
    cases before with
    | nil =>
      rw [List.append_nil] at here ⊢
      rw [List.nil_append] at whole ⊢
      obtain ⟨passed, tail, -, nonempty, span, search⟩ := steps.searchBehind_of_matchAt? whole here
      have width := List.length_pos_iff.mpr (mt eq_nil_of_encode nonempty)
      rw [search]
      refine ⟨found, List.mem_cons_self, (congrArg Span.start span).le, ?_⟩
      rw [span, encode_append, List.length_append]
      exact Nat.lt_add_of_pos_right width
    | cons c before =>
      cases earlier : matchAt? pattern (between front (c :: (before ++ rest))) with
      | none =>
        rw [List.cons_append, searchBehind_of_none earlier]
        rw [List.append_cons] at here
        have later := ih before.length (by simp) (by simpa using whole) here rfl
        rwa [← List.append_cons] at later
      | some other =>
        obtain ⟨passed, tail, split, nonempty, span, search⟩ :=
          steps.searchBehind_of_matchAt? whole earlier
        rw [search]
        rcases Nat.lt_or_ge (encode (front ++ c :: before)).length
          (encode (front ++ passed)).length with beyond | reached
        · refine ⟨other, List.mem_cons_self, ?_, ?_⟩
          · have place : other.span.start = (encode front).length := congrArg Span.start span
            rw [place, encode_append, List.length_append]
            exact Nat.le_add_right _ _
          · rwa [congrArg Span.stop span]
        · have short : (encode passed).length ≤ (encode (c :: before)).length := by
            rw [encode_append, encode_append, List.length_append, List.length_append] at reached
            exact Nat.le_of_add_le_add_left reached
          obtain ⟨more, beforeEq, rfl⟩ :=
            exists_append_of_length_le (split.symm : passed ++ tail = c :: before ++ rest) short
          have shorter : more.length < (c :: before).length := by
            have := List.length_pos_iff.mpr nonempty
            rw [beforeEq, List.length_append]
            omega
          rw [beforeEq, ← List.append_assoc] at here ⊢
          obtain ⟨cover, member, begins, ends⟩ := ih more.length shorter
            (by rw [List.append_assoc, ← split]; exact whole) here rfl
          exact ⟨cover, List.mem_cons_of_mem _ member, begins, ends⟩

/-- Where something matches, what is found there or in front reaches over the place. -/
theorem Steps.exists_covering (steps : Steps characters pattern) {before rest : List Char}
    (whole : before ++ rest = characters)
    (here : matchAt? pattern (between before rest) = some found) :
    ∃ other ∈ Pattern.search pattern (encode characters),
      other.span.start ≤ (encode before).length ∧ (encode before).length < other.span.stop := by
  rw [← whole, search_encode]
  exact steps.exists_covering_behind whole here

/-- What matches behind some characters is found, unless a match that begins in them reaches
farther. -/
theorem Steps.mem_search (steps : Steps characters pattern) {before rest : List Char}
    (whole : before ++ rest = characters)
    (here : matchAt? pattern (between before rest) = some found)
    (clear : ∀ first second other, before = first ++ second → second ≠ [] →
      matchAt? pattern (between first (second ++ rest)) = some other →
        other.span.stop ≤ (encode before).length) :
    found ∈ Pattern.search pattern (encode characters) := by
  obtain ⟨cover, member, begins, ends⟩ := steps.exists_covering whole here
  obtain ⟨first, second, split, reads⟩ := exists_of_mem_search member
  obtain ⟨_, -, span, -⟩ := exists_of_matchAt? reads
  rw [span, position_between] at begins
  obtain ⟨others, rfl, rfl⟩ := exists_append_of_length_le (split.symm.trans whole.symm) begins
  rcases eq_or_ne others [] with rfl | nonempty
  · rw [List.append_nil] at here
    obtain rfl : cover = found := Option.some.inj (reads.symm.trans here)
    exact member
  · exact absurd (clear first others cover rfl nonempty reads) (Nat.not_le.mpr ends)

end Searches

end Pattern

end BareComponent
