import BareComponent.Pattern.Search
import BareComponent.Proofs.Text.Encoding

/-! # Cutting and replacing

A text contains another where it can be cut around it, and beside a class of characters it can be
cut in one way only. Replacing goes through a text from left to right, so each lemma here cuts off
what has been copied already.
-/

namespace BareComponent.Text

/-- Behind a class of elements that an element does not belong to, a list is cut in one way. -/
theorem append_cons_inj_of_not {α : Type} (members : α → Prop) {front other behind rest : List α}
    {a b : α} (same : front ++ a :: behind = other ++ b :: rest) (aOutside : ¬ members a)
    (bOutside : ¬ members b) (behindInside : ∀ c ∈ behind, members c)
    (restInside : ∀ c ∈ rest, members c) : front = other ∧ a = b ∧ behind = rest := by
  rcases List.append_eq_append_iff.mp same with ⟨more, rfl, split⟩ | ⟨more, rfl, split⟩
  all_goals
    cases more with
    | nil =>
      obtain ⟨rfl, rfl⟩ := List.cons.inj split
      exact ⟨by simp, rfl, rfl⟩
    | cons c more =>
      obtain ⟨-, rfl⟩ := List.cons.inj split
      simp_all

/-- In front of a class of elements that an element does not belong to, a list is cut in one way. -/
theorem append_cons_inj_of_front {α : Type} (members : α → Prop) {front other behind rest : List α}
    {a b : α} (same : front ++ a :: behind = other ++ b :: rest) (aOutside : ¬ members a)
    (bOutside : ¬ members b) (frontInside : ∀ c ∈ front, members c)
    (otherInside : ∀ c ∈ other, members c) : front = other ∧ a = b ∧ behind = rest := by
  have backwards := congrArg List.reverse same
  simp only [List.reverse_append, List.reverse_cons, List.append_assoc, List.singleton_append]
    at backwards
  obtain ⟨behindEq, aEq, frontEq⟩ := append_cons_inj_of_not members backwards aOutside
    bOutside (by simpa using frontInside) (by simpa using otherInside)
  exact ⟨List.reverse_injective frontEq, aEq, List.reverse_injective behindEq⟩

/-- A character outside a class stops a run of it. -/
theorem head?_outside {members : Char → Bool} {c : Char} (outside : members c = false)
    (rest : List Char) : ∀ d ∈ (c :: rest).head?, members d = false := by
  intro d first
  obtain rfl : c = d := Option.some.inj first
  exact outside

/-- Two runs of a class that nothing of the class follows are cut at the same place. -/
theorem append_inj_of_run {α : Type} (members : α → Bool) {front other behind rest : List α}
    (same : front ++ behind = other ++ rest) (frontInside : ∀ c ∈ front, members c = true)
    (otherInside : ∀ c ∈ other, members c = true) (stops : ∀ c ∈ behind.head?, members c = false)
    (otherStops : ∀ c ∈ rest.head?, members c = false) : front = other ∧ behind = rest := by
  rcases List.append_eq_append_iff.mp same with ⟨more, rfl, split⟩ | ⟨more, rfl, split⟩
  all_goals
    cases more with
    | nil => simp_all
    | cons c more => simp_all

/-- Blanks at the end are cut off in one way. -/
theorem eq_of_append_blank {first second gap blanks : List Char}
    (same : first ++ gap = second ++ blanks) (blank : Blank gap) (otherBlank : Blank blanks)
    (dark : ∀ c ∈ first.getLast?, CharacterClass.blank c.toNat = false)
    (otherDark : ∀ c ∈ second.getLast?, CharacterClass.blank c.toNat = false) :
    first = second ∧ gap = blanks := by
  have reversed := congrArg List.reverse same
  rw [List.reverse_append, List.reverse_append] at reversed
  obtain ⟨gaps, words⟩ := append_inj_of_run (fun c : Char => CharacterClass.blank c.toNat) reversed
    (fun c member => blank c (List.mem_reverse.mp member))
    (fun c member => otherBlank c (List.mem_reverse.mp member))
    (by simpa using dark) (by simpa using otherDark)
  exact ⟨List.reverse_injective words, List.reverse_injective gaps⟩

theorem startsWith_iff_prefix {text needle : Text} :
    startsWith text needle = true ↔ needle <+: text := by
  rw [startsWith_iff, List.IsPrefix]
  simp only [eq_comm]

/-- What it means that a text contains another. -/
theorem contains_iff {text needle : Text} : text.contains needle = true ↔ needle <:+: text := by
  have found : (indexOf? text needle).isSome = true ↔ needle <:+: text := by
    induction text with
    | nil => by_cases nothing : needle = [] <;> simp [indexOf?, nothing]
    | cons b rest ih =>
      rw [indexOf?, List.infix_cons_iff, ← ih, ← startsWith_iff_prefix]
      split <;> simp_all
  exact found

theorem indexOf?_eq_none_iff {text needle : Text} :
    text.indexOf? needle = none ↔ ¬needle <:+: text := by
  rw [← contains_iff, contains, Bool.not_eq_true, Option.isSome_eq_false_iff,
    Option.isNone_iff_eq_none]

/-- The first byte of a kind stands behind all bytes of other kinds. -/
theorem indexOf?_append_cons {front : Text} {b : UInt8} (free : b ∉ front) (behind : Text) :
    indexOf? (front ++ b :: behind) [b] = some front.length := by
  induction front with
  | nil => simp [indexOf?, startsWith, after?]
  | cons c front ih =>
    have other := List.ne_of_not_mem_cons free
    simp [indexOf?, startsWith, after?, Ne.symm other, ih (List.not_mem_of_not_mem_cons free)]

/-- The last byte of a kind stands in front of all bytes of other kinds. -/
theorem lastIndexOf?_append_cons (front : Text) {behind : Text} {b : UInt8} (free : b ∉ behind) :
    lastIndexOf? (front ++ b :: behind) [b] = some front.length := by
  have nothing : lastIndexOf? behind [b] = none := by
    induction behind with
    | nil => rfl
    | cons c behind ih =>
      have other := List.ne_of_not_mem_cons free
      simp [lastIndexOf?, startsWith, after?, Ne.symm other,
        ih (List.not_mem_of_not_mem_cons free)]
  induction front with
  | nil => simp [lastIndexOf?, nothing, startsWith, after?]
  | cons c front ih => simp [lastIndexOf?, ih]

/-- What is found stands at the place that is answered. -/
theorem exists_of_indexOf? {text needle : Text} {count : Nat}
    (found : text.indexOf? needle = some count) :
    ∃ front behind, text = front ++ needle ++ behind ∧ front.length = count := by
  induction text generalizing count with
  | nil =>
    by_cases nothing : needle = []
    · exact ⟨[], [], by simp [nothing], by simpa [indexOf?, nothing] using found⟩
    · simp [indexOf?, nothing] at found
  | cons b rest ih =>
    rw [indexOf?] at found
    split at found
    · next starts =>
      obtain ⟨behind, split⟩ := startsWith_iff.mp starts
      exact ⟨[], behind, split, Option.some.inj found⟩
    · obtain ⟨offset, later, rfl⟩ := Option.map_eq_some_iff.mp found
      obtain ⟨front, behind, rfl, rfl⟩ := ih later
      exact ⟨b :: front, behind, rfl, rfl⟩

/-- A cut leaves what stands in front of what is found and what stands behind it. -/
theorem eq_of_cut? {text needle first second : Text}
    (cut : text.cut? needle = some (first, second)) : text = first ++ needle ++ second := by
  obtain ⟨offset, found, sides⟩ := Option.map_eq_some_iff.mp cut
  obtain ⟨front, behind, rfl, rfl⟩ := exists_of_indexOf? found
  obtain ⟨rfl, rfl⟩ := Prod.mk.inj sides
  simp [List.append_assoc]

theorem cut?_eq_none_iff {text needle : Text} : text.cut? needle = none ↔ ¬needle <:+: text := by
  rw [cut?, Option.map_eq_none_iff, indexOf?_eq_none_iff]

private theorem startsWith_append {text needle : Text} (inside : needle.length ≤ text.length)
    (rest : Text) : startsWith (text ++ rest) needle = startsWith text needle := by
  rw [Bool.eq_iff_iff, startsWith_iff_prefix, startsWith_iff_prefix]
  constructor
  · intro begins
    exact List.prefix_of_prefix_length_le begins (List.prefix_append text rest) inside
  · intro begins
    exact begins.trans (List.prefix_append text rest)

/-- What stands behind a text does not matter to where something is found first in it. -/
theorem indexOf?_append {text needle : Text} {count : Nat}
    (inside : count + needle.length ≤ text.length) (rest : Text) :
    indexOf? (text ++ rest) needle = some count ↔ indexOf? text needle = some count := by
  induction text generalizing count with
  | nil =>
    obtain ⟨rfl, nothing⟩ := Nat.add_eq_zero_iff.mp (Nat.le_zero.mp inside)
    obtain rfl := List.length_eq_zero_iff.mp nothing
    cases rest <;> simp [indexOf?, startsWith, after?]
  | cons b text ih =>
    have short : needle.length ≤ (b :: text).length := by omega
    have same := startsWith_append short rest
    rw [List.cons_append] at same ⊢
    rw [indexOf?, indexOf?, same]
    split
    · rfl
    · cases count with
      | zero => simp
      | succ count =>
        have behind : count + needle.length ≤ text.length := by
          rw [List.length_cons] at inside
          omega
        simp [ih behind]

theorem slice_append {front piece : Text} (behind : Text) {start stop : Nat}
    (starts : front.length = start) (stops : start + piece.length = stop) :
    slice (front ++ piece ++ behind) ⟨start, stop⟩ = piece := by
  subst starts stops
  have length : front.length + piece.length = (front ++ piece).length := by simp
  simp only [slice]
  rw [length, List.take_left, List.drop_left]

/-- What is cut out of a text does not depend on what stands behind it. -/
theorem slice_append_of_le {text : Text} {span : Span} (inside : span.stop ≤ text.length)
    (behind : Text) : slice (text ++ behind) span = slice text span := by
  rw [slice, slice, List.take_append_of_le_length inside]

/-- What a span takes out of a text it takes out of a larger one where it stands there. -/
theorem slice_shift (front text : Text) (span : Span) :
    slice (front ++ text) (span.shift front.length) = slice text span := by
  rw [slice, slice, Span.shift, Nat.add_comm span.stop, List.take_length_add_append,
    Nat.add_comm span.start, List.drop_length_add_append]

private theorem dropMeasured_suffix (width : Text → Nat) (limit : Nat) (text : Text) :
    dropMeasured width limit text <:+ text := by
  induction limit generalizing text with
  | zero => exact List.suffix_refl text
  | succ limit ih =>
    rw [dropMeasured]
    split
    · exact List.suffix_refl text
    · exact (ih _).trans (List.drop_suffix _ _)

/-- Trimming cuts one piece out of a text. -/
theorem slice_trim (text : Text) :
    text.slice ⟨text.length - text.trimStart.length,
      text.length - text.trimStart.length + text.trim.length⟩ = text.trim := by
  have start : text.trimStart = text.drop (text.length - text.trimStart.length) :=
    List.suffix_iff_eq_drop.mp (dropMeasured_suffix _ _ _)
  have stop : text.trim = text.trimStart.take text.trim.length := by
    rw [← List.prefix_iff_eq_take, Text.trim, trimEnd, trimEndOf, ← List.reverse_suffix,
      List.reverse_reverse]
    exact dropMeasured_suffix _ _ _
  rw [slice, List.drop_take, Nat.add_sub_cancel_left]
  exact (stop.trans (congrArg (List.take _) start)).symm

variable {copied pending behind : Text} {start : Nat}

/-- Behind the last edit the text is copied. -/
theorem replaceFrom_nil (starts : copied.length = start) :
    replaceFrom (copied ++ pending) start [] = pending := by
  rw [replaceFrom, ← starts, List.drop_left]

/-- What stands in front of an edit is copied. -/
theorem replaceFrom_cons (starts : copied.length = start) (edits : List (Span × Text))
    (replacement : Text) {span : Span} (first : copied.length + pending.length = span.start) :
    replaceFrom (copied ++ pending ++ behind) start ((span, replacement) :: edits) =
      pending ++ replacement ++ replaceFrom (copied ++ pending ++ behind) span.stop edits := by
  rw [replaceFrom, slice_append behind starts (starts ▸ first)]

/-- Edits seen from a text that has `count` more bytes in front. -/
def shiftEdits (count : Nat) (edits : List (Span × Text)) : List (Span × Text) :=
  edits.map fun edit => (edit.1.shift count, edit.2)

private theorem replaceFrom_shiftEdits (front text : Text) (start : Nat)
    (edits : List (Span × Text)) :
    replaceFrom (front ++ text) (start + front.length) (shiftEdits front.length edits) =
      replaceFrom text start edits := by
  induction edits generalizing start with
  | nil => rw [shiftEdits, List.map_nil, replaceFrom, replaceFrom, Nat.add_comm,
      List.drop_length_add_append]
  | cons edit edits ih =>
    obtain ⟨span, replacement⟩ := edit
    have copied := slice_shift front text ⟨start, span.start⟩
    rw [Span.shift] at copied
    rw [shiftEdits, List.map_cons, ← shiftEdits, replaceFrom, replaceFrom, Span.shift, copied, ih]

private theorem replaceFrom_append_shiftEdits {first : Text} {start : Nat} (second : Text)
    (begins : start ≤ first.length) {edits : List (Span × Text)}
    (inside : ∀ edit ∈ edits, edit.1.start ≤ first.length ∧ edit.1.stop ≤ first.length)
    (others : List (Span × Text)) :
    replaceFrom (first ++ second) start (edits ++ shiftEdits first.length others) =
      replaceFrom first start edits ++ replaceFrom second 0 others := by
  induction edits generalizing start with
  | nil =>
    cases others with
    | nil => simp [shiftEdits, replaceFrom, List.drop_append_of_le_length begins]
    | cons other others =>
      obtain ⟨span, replacement⟩ := other
      have copied : slice (first ++ second) ⟨start, span.start + first.length⟩ =
          first.drop start ++ slice second ⟨0, span.start⟩ := by
        rw [slice, slice, Nat.add_comm, List.take_length_add_append,
          List.drop_append_of_le_length begins, List.drop_zero]
      rw [List.nil_append, shiftEdits, List.map_cons, ← shiftEdits, replaceFrom, replaceFrom,
        replaceFrom, Span.shift, replaceFrom_shiftEdits, copied]
      simp only [List.append_assoc]
  | cons edit edits ih =>
    obtain ⟨span, replacement⟩ := edit
    obtain ⟨⟨starts, stops⟩, rest⟩ := List.forall_mem_cons.mp inside
    rw [List.cons_append, replaceFrom, replaceFrom, slice_append_of_le starts, ih stops rest]
    simp only [List.append_assoc]

/-- A text in two parts whose edits are those of each part is replaced part by part. -/
theorem replace_append {first : Text} (second : Text) {edits : List (Span × Text)}
    (inside : ∀ edit ∈ edits, edit.1.start ≤ first.length ∧ edit.1.stop ≤ first.length)
    (others : List (Span × Text)) :
    replace (first ++ second) (edits ++ shiftEdits first.length others) =
      replace first edits ++ replace second others :=
  replaceFrom_append_shiftEdits second (Nat.zero_le _) inside others

private theorem exists_shiftEdits {edits : List (Span × Text)} {count : Nat}
    (behind : ∀ edit ∈ edits, count ≤ edit.1.start ∧ edit.1.start ≤ edit.1.stop) :
    ∃ others, edits = shiftEdits count others := by
  refine ⟨edits.map fun edit => (⟨edit.1.start - count, edit.1.stop - count⟩, edit.2), ?_⟩
  rw [shiftEdits, List.map_map]
  refine (List.map_id edits).symm.trans (List.map_congr_left fun edit member => ?_)
  obtain ⟨starts, ordered⟩ := behind edit member
  simp only [Function.comp_apply, Span.shift, Nat.sub_add_cancel starts,
    Nat.sub_add_cancel (starts.trans ordered), id_eq]

def editsInFront (edits : List (Span × Text)) (place : Nat) : List (Span × Text) :=
  edits.takeWhile (·.1.stop ≤ place)

/-- Where a place of a text stands once the text is replaced, if no edit takes it. -/
def placeAfter (text : Text) (edits : List (Span × Text)) (place : Nat) : Nat :=
  (replace (text.take place) (editsInFront edits place)).length

section Around

variable {edits : List (Span × Text)} (rising : edits.Pairwise (·.1.stop ≤ ·.1.start))
  (ordered : ∀ edit ∈ edits, edit.1.start ≤ edit.1.stop)
include rising ordered

private theorem exists_edits_behind {place stop : Nat}
    (apart : ∀ edit ∈ edits, stop ≤ edit.1.start ∨ edit.1.stop ≤ place) :
    ∃ others, edits = editsInFront edits place ++ shiftEdits stop others := by
  let behind := edits.dropWhile (·.1.stop ≤ place)
  have split : edits = editsInFront edits place ++ behind :=
    List.takeWhile_append_dropWhile.symm
  have known : behind.Sublist edits := List.dropWhile_sublist _
  have first : ∀ edit ∈ behind.head?, ¬edit.1.stop ≤ place := by
    intro edit head
    have stays := List.head?_dropWhile_not (fun edit : Span × Text => edit.1.stop ≤ place) edits
    rw [Option.mem_def.mp head] at stays
    simpa using stays
  have starts : ∀ edit ∈ behind, stop ≤ edit.1.start := by
    cases shape : behind with
    | nil => simp
    | cons edit others =>
      rw [shape] at known first
      have member := known.mem List.mem_cons_self
      have here := (apart edit member).resolve_right (first edit rfl)
      refine List.forall_mem_cons.mpr ⟨here, fun later inside => ?_⟩
      have follows := (List.pairwise_cons.mp (rising.sublist known)).1 later inside
      exact here.trans ((ordered edit member).trans follows)
  obtain ⟨others, behindEq⟩ := exists_shiftEdits fun edit member =>
    ⟨starts edit member, ordered edit (known.mem member)⟩
  exact ⟨others, behindEq ▸ split⟩

/-- A piece of a text that no edit touches stands between what the edits in front of it leave and
what those behind it leave. -/
theorem replace_around {front piece : Text} (rest : Text)
    (apart : ∀ edit ∈ edits, (front ++ piece).length ≤ edit.1.start ∨
      edit.1.stop ≤ front.length) :
    ∃ others, (∀ edit ∈ others, (edit.1.shift (front ++ piece).length, edit.2) ∈ edits) ∧
      replace (front ++ (piece ++ rest)) edits =
        replace front (editsInFront edits front.length) ++ (piece ++ replace rest others) := by
  obtain ⟨others, split⟩ := exists_edits_behind rising ordered apart
  have inside : ∀ edit ∈ editsInFront edits front.length,
      edit.1.start ≤ front.length ∧ edit.1.stop ≤ front.length := by
    intro edit member
    have stops : edit.1.stop ≤ front.length := by simpa using List.mem_takeWhile_imp member
    exact ⟨(ordered edit ((List.takeWhile_sublist _).mem member)).trans stops, stops⟩
  have nested : shiftEdits (front ++ piece).length others =
      shiftEdits front.length (shiftEdits piece.length others) := by
    simp only [shiftEdits, List.map_map, Function.comp_def, Span.shift, List.length_append,
      Nat.add_assoc, Nat.add_comm piece.length]
  have kept : replace (piece ++ rest) (shiftEdits piece.length others) =
      piece ++ replace rest others :=
    replace_append rest (fun _ member => absurd member List.not_mem_nil) others
  refine ⟨others, fun edit member => ?_, ?_⟩
  · rw [split]
    exact List.mem_append_right _ (List.mem_map_of_mem member)
  · conv_lhs => rw [split, nested, replace_append _ inside, kept]

end Around

/-- A text that is replaced is what the edits in front of one of them leave, the replacement, and
what is replaced from there. -/
theorem replaceFrom_append_cons (text : Text) (start : Nat) {earlier : List (Span × Text)}
    {span : Span} (inside : ∀ edit ∈ earlier, edit.1.start ≤ span.start) (replacement : Text)
    (later : List (Span × Text)) :
    replaceFrom text start (earlier ++ (span, replacement) :: later) =
      replaceFrom (text.take span.start) start earlier ++
        (replacement ++ replaceFrom text span.stop later) := by
  induction earlier generalizing start with
  | nil => simp [replaceFrom, slice]
  | cons edit earlier ih =>
    obtain ⟨first, others⟩ := List.forall_mem_cons.mp inside
    have copied : slice (text.take span.start) ⟨start, edit.1.start⟩ =
        slice text ⟨start, edit.1.start⟩ := by
      rw [slice, slice, List.take_take, Nat.min_eq_left first]
    rw [List.cons_append, replaceFrom, replaceFrom, copied, ih _ others]
    simp only [List.append_assoc]

/-- Up to the first edit the text is copied. -/
theorem replaceFrom_of_le (text : Text) {start place : Nat} (ordered : start ≤ place)
    {edits : List (Span × Text)} (behind : ∀ edit ∈ edits, place ≤ edit.1.start) :
    replaceFrom text start edits = slice text ⟨start, place⟩ ++ replaceFrom text place edits := by
  have split {stop : Nat} (later : place ≤ stop) :
      slice text ⟨start, stop⟩ = slice text ⟨start, place⟩ ++ slice text ⟨place, stop⟩ := by
    have cut := List.take_append_drop (place - start) (slice text ⟨start, stop⟩)
    simp only [slice, List.take_drop, List.drop_drop, List.take_take,
      Nat.add_sub_cancel' ordered, Nat.min_eq_left later] at cut ⊢
    exact cut.symm
  cases edits with
  | nil =>
    have cut := List.take_append_drop (place - start) (text.drop start)
    rw [List.take_drop, List.drop_drop, Nat.add_sub_cancel' ordered] at cut
    exact cut.symm
  | cons edit edits =>
    rw [replaceFrom, replaceFrom, split (behind edit List.mem_cons_self)]
    simp only [List.append_assoc]

/-- Where no edit begins at the front of a text, the text begins as it did. -/
theorem head?_replace {text : Text} {edits : List (Span × Text)}
    (later : ∀ edit ∈ edits, 0 < edit.1.start ∧ edit.1.start ≤ text.length) :
    (replace text edits).head? = text.head? := by
  cases edits with
  | nil => rfl
  | cons edit edits =>
    obtain ⟨⟨start, stop⟩, replacement⟩ := edit
    obtain ⟨starts, inside⟩ := later _ List.mem_cons_self
    cases text with
    | nil => exact absurd inside (Nat.not_le.mpr starts)
    | cons b text =>
      cases start with
      | zero => exact absurd starts (Nat.lt_irrefl 0)
      | succ start => rfl

end BareComponent.Text
