import BareComponent.Proofs.Component.ImportLine
import BareComponent.Proofs.Component.Statement

/-! # Which declarations are listed, and in which order

A statement that begins with a declaring keyword is read there, unless a keyword stands directly in
front of it, which then takes the keyword of the statement for its name. Of a declaration with
several declarators the first one is listed. Of a destructuring declaration each entry is listed in
whose default value there is no colon. Names are listed in the order of where they are read first,
and each of them once.
-/

namespace BareComponent

open Text Pattern Cursor ComponentScript

namespace Declaration

/-- Whether an entry of a destructuring declaration binds a name: for itself, as an alias or as a
rest, and with or without a default value, in which there is no colon. -/
def Slot (entry name : List Char) : Prop :=
  ∃ property, Entry property entry name ∧ ':' ∉ entry.drop property.length

/-- Where a name is declared: where the statement begins, and how many entries of a destructuring
declaration stand in front. -/
structure Place where
  start : Nat
  index : Nat
deriving DecidableEq, Repr

/-- Whether a place stands in front of another one. -/
def Place.Before (first second : Place) : Prop :=
  first.start < second.start ∨ first.start = second.start ∧ first.index < second.index

/-- Whether a name is an identifier that names no temporary. -/
def Plain (name : List Char) : Prop :=
  (encode name).isIdentifier = true ∧ (encode name).startsWith temporaryStem = false

instance (name : List Char) : Decidable (Plain name) :=
  inferInstanceAs (Decidable ((encode name).isIdentifier = true ∧
    (encode name).startsWith temporaryStem = false))

/-- The declarations at the top level of a mask whose names are listed. -/
inductive Exposes (masked : Text) : Place → Text → Prop
  | word {before head name after : List Char}
      (shape : masked = encode (before ++ (head ++ (name ++ after))))
      (outside : masked.depthAt (encode before).length = 0)
      (edge : ∀ c ∈ before.getLast?, CharacterClass.wordOrDollar c.toNat = false)
      (heads : Head head) (clear : lastWord before ∉ keywords) (plain : Plain name)
      (complete : ∀ c ∈ after.head?, CharacterClass.wordOrDollar c.toNat = false) :
      Exposes masked ⟨(encode before).length, 0⟩ (encode name)
  | entry {before after entry name : List Char} {parts : Destructuring} {index : Nat}
      (shape : masked = encode (before ++ (parts.spelled ++ after)))
      (outside : masked.depthAt (encode before).length = 0)
      (edge : ∀ c ∈ before.getLast?, CharacterClass.wordOrDollar c.toNat = false)
      (here : parts.entries[index]? = some entry) (slot : Slot entry name) (plain : Plain name) :
      Exposes masked ⟨(encode before).length, index⟩ (encode name)

/-- What is read as declared at the top level of a mask, whether it is listed or not. -/
inductive Reads (masked : Text) : Place → Text → Prop
  | word {before head name after : List Char}
      (shape : masked = encode (before ++ (head ++ (name ++ after))))
      (outside : masked.depthAt (encode before).length = 0)
      (heads : Head head ∨ head = "function".toList) (named : RequireLine.IsName name)
      (complete : ∀ c ∈ after.head?, CharacterClass.wordOrDollar c.toNat = false) :
      Reads masked ⟨(encode before).length, 0⟩ (encode name)
  | entry {before after entry : List Char} {parts : Destructuring} {index : Nat}
      (shape : masked = encode (before ++ (parts.spelled ++ after)))
      (outside : masked.depthAt (encode before).length = 0)
      (here : parts.entries[index]? = some entry) :
      Reads masked ⟨(encode before).length, index⟩ (boundBy (encode entry))

private theorem encode_copies (count : Nat) (needle : List Char) :
    encode (List.replicate count needle).flatten =
      (List.replicate count (encode needle)).flatten := by
  induction count with
  | zero => rfl
  | succ count ih =>
    rw [List.replicate_succ, List.replicate_succ, List.flatten_cons, List.flatten_cons,
      encode_append, ih]

section Names

variable {name rest : List Char} (plain : Plain name)
include plain

theorem Plain.isName : RequireLine.IsName name := by
  have low : ∀ b ∈ encode name, b.toNat < 0x80 := fun b member =>
    low_of_inTarget (inTarget_of_name plain.1 b member)
  have same : ascii (encode name) = name := encode_injective (encode_ascii low)
  rw [← same]
  exact isName_ascii plain.1

theorem Plain.wordOrDollar : ∀ c ∈ name, CharacterClass.wordOrDollar c.toNat = true :=
  RequireLine.wordOrDollar_of_name plain.isName

theorem Plain.dark : ∀ c ∈ name, CharacterClass.blank c.toNat = false := by
  intro c member
  have word := plain.wordOrDollar c member
  by_contra blank
  rw [Bool.not_eq_false] at blank
  rw [CharacterClass.wordOrDollar_of_blank blank] at word
  contradiction

private theorem Plain.trim {front behind : List Char} (blank : Blank front)
    (behindBlank : Blank behind) :
    (encode (front ++ name ++ behind)).trim = encode name :=
  trim_encode_padded blank behindBlank (fun c first => plain.dark c (List.mem_of_mem_head? first))
    fun c last => plain.dark c (List.mem_of_mem_getLast? last)

private theorem Plain.startsWith_dots {more : List Char} (blank : Blank more) :
    (encode (more ++ name)).startsWith "..." = false := by
  rw [Bool.eq_false_iff]
  intro starts
  obtain ⟨bytes, split⟩ := startsWith_iff.mp starts
  obtain ⟨behind, same, -⟩ :=
    encode_eq_encode_append (split : _ = encode "...".toList ++ bytes)
  have dot : '.' ∈ more ++ name := by
    rw [same]
    exact List.mem_append_left _ (by decide)
  rcases List.mem_append.mp dot with inside | inside
  · exact absurd (blank _ inside) (by decide)
  · exact absurd (plain.wordOrDollar _ inside) (by decide)

private theorem Plain.equals_not_mem {gap more trailing : List Char} (gapBlank : Blank gap)
    (moreBlank : Blank more) (trailingBlank : Blank trailing) (copies : Nat) :
    '=' ∉ gap ++ (List.replicate copies "...".toList).flatten ++ (more ++ name) ++ trailing := by
  have dark {part : List Char} (blank : Blank part) : '=' ∉ part := fun inside =>
    absurd (blank _ inside) (by decide)
  have dots : '=' ∉ (List.replicate copies "...".toList).flatten := by
    intro inside
    obtain ⟨needle, copy, inside⟩ := List.mem_flatten.mp inside
    rw [List.eq_of_mem_replicate copy] at inside
    exact absurd inside (by decide)
  have word : '=' ∉ name := fun inside => absurd (plain.wordOrDollar _ inside) (by decide)
  simp only [List.mem_append, not_or]
  exact ⟨⟨⟨dark gapBlank, dots⟩, dark moreBlank, word⟩, dark trailingBlank⟩

private theorem Plain.exists_trim {gap more trailing : List Char} (gapBlank : Blank gap)
    (moreBlank : Blank more) (trailingBlank : Blank trailing) (copies : Nat) :
    ∃ lead, Blank lead ∧ (encode (gap ++ (List.replicate copies "...".toList).flatten ++
        (more ++ name) ++ trailing)).trim =
      (List.replicate copies (encode "...".toList)).flatten ++ encode (lead ++ name) := by
  cases copies with
  | zero =>
    have both : Blank (gap ++ more) := List.forall_mem_append.mpr ⟨gapBlank, moreBlank⟩
    have trimmed := plain.trim both trailingBlank
    exact ⟨[], blank_nil, by simpa using trimmed⟩
  | succ copies =>
    refine ⟨more, moreBlank, ?_⟩
    rw [← encode_copies, ← encode_append, List.append_assoc gap]
    refine trim_encode_padded gapBlank trailingBlank ?_ ?_
    · rintro c first
      obtain rfl : '.' = c := Option.some.inj first
      decide
    · intro c last
      have nonempty : name ≠ [] := by
        rintro rfl
        exact plain.isName
      rw [← List.append_assoc, List.getLast?_append_of_ne_nil _ nonempty] at last
      exact plain.dark c (List.mem_of_mem_getLast? last)

/-- An entry is read as binding the name that it binds. -/
theorem boundBy_of_slot {entry : List Char} (slot : Slot entry name) :
    boundBy (encode entry) = encode name := by
  obtain ⟨property, @⟨gap, more, trailing, value, copies, shape, aliased, gapBlank, moreBlank,
    trailingBlank, defaulted⟩, colonless⟩ := slot
  have split : entry = property ++ ((gap ++ (List.replicate copies "...".toList).flatten ++
      (more ++ name) ++ trailing) ++ value) := by
    rw [shape]
    simp only [List.append_assoc]
  rw [split, List.drop_left] at colonless
  have target := rtakeWhile_encode_append (b := Byte.colon) rfl (by decide) aliased colonless
  have bound := takeWhile_encode_append (b := Byte.equals) rfl (by decide)
    (plain.equals_not_mem gapBlank moreBlank trailingBlank copies) defaulted
  obtain ⟨lead, leadBlank, trimmed⟩ :=
    plain.exists_trim gapBlank moreBlank trailingBlank copies
  have dropped := dropCopies_append (by decide : encode "...".toList ≠ [])
    (plain.startsWith_dots leadBlank) copies
  have named := plain.trim leadBlank blank_nil
  rw [List.append_nil] at named
  rw [List.rtakeWhile] at target
  rw [boundBy, split, target, bound, trimmed, ofString_eq, dropped, named]

end Names

section Found

variable {start : Nat} {masked : Text}

private theorem filter_flatMap_start {list : List (Match Span)}
    {read : Match Span → List (Nat × Text)}
    (starts : ∀ found, ∀ item ∈ read found, item.1 = found.span.start) :
    (list.flatMap read).filter (·.1 == start) =
      (list.filter (·.span.start == start)).flatMap read := by
  induction list with
  | nil => rfl
  | cons found list ih =>
    rw [List.flatMap_cons, List.filter_append, ih, List.filter_cons]
    by_cases here : found.span.start = start
    · have all : (read found).filter (·.1 == start) = read found := by
        refine List.filter_eq_self.mpr fun item member => ?_
        rw [starts found item member, here, beq_self_eq_true]
      rw [if_pos (by simpa using here), all, List.flatMap_cons]
    · have nothing : (read found).filter (·.1 == start) = [] := by
        refine List.filter_eq_nil_iff.mpr fun item member => ?_
        rw [starts found item member]
        simpa using here
      rw [if_neg (by simpa using here), nothing, List.nil_append]

private def outside (pattern : Pattern Span) (masked : Text) : List (Match Span) :=
  (pattern.search masked).filter fun found => masked.depthAt found.span.start == 0

private theorem filter_outside {pattern : Pattern Span} {characters : List Char}
    {found : Match Span} (steps : Steps characters pattern)
    (member : found ∈ pattern.search (encode characters)) (place : found.span.start = start)
    (depth : (encode characters).depthAt start = 0) :
    (outside pattern (encode characters)).filter (·.span.start == start) = [found] := by
  subst place
  rw [outside, List.filter_comm, steps.filter_search member]
  simp [depth]

private def readSingle (masked : Text) (found : Match Span) : List (Nat × Text) :=
  [(found.span.start, masked.slice found.value)]

private def readEntries (masked : Text) (found : Match Span) : List (Nat × Text) :=
  ((masked.slice found.value).splitOn Byte.comma).map fun entry => (found.span.start, boundBy entry)

private theorem found_eq (masked : Text) : found masked =
    (outside single masked).flatMap (readSingle masked) ++
      (outside destructuring masked).flatMap (readEntries masked) := by
  have singles : (outside single masked).map (fun found =>
      (found.span.start, masked.slice found.value)) =
        (outside single masked).flatMap (readSingle masked) := List.map_eq_flatMap ..
  rw [← singles]
  rfl

private theorem filter_found (masked : Text) (start : Nat) :
    (found masked).filter (·.1 == start) =
      ((outside single masked).filter (·.span.start == start)).flatMap (readSingle masked) ++
        ((outside destructuring masked).filter (·.span.start == start)).flatMap
          (readEntries masked) := by
  have singleStarts : ∀ found, ∀ item ∈ readSingle masked found, item.1 = found.span.start := by
    intro found item member
    rw [List.mem_singleton.mp member]
  have entryStarts : ∀ found, ∀ item ∈ readEntries masked found, item.1 = found.span.start := by
    intro found item member
    obtain ⟨entry, -, rfl⟩ := List.mem_map.mp member
    rfl
  rw [found_eq, List.filter_append, filter_flatMap_start singleStarts,
    filter_flatMap_start entryStarts]

private theorem exists_reads {characters : List Char} {item : Nat × Text}
    (member : item ∈ found (encode characters)) :
    ∃ index, Reads (encode characters) ⟨item.1, index⟩ item.2 := by
  rw [found_eq] at member
  rcases List.mem_append.mp member with isSingle | destructured
  · obtain ⟨found, inside, member⟩ := List.mem_flatMap.mp isSingle
    obtain ⟨search, depth⟩ := List.mem_filter.mp inside
    obtain rfl := List.mem_singleton.mp member
    obtain ⟨before, head, name, after, rfl, heads, -, named, complete, place, read⟩ :=
      exists_of_mem_search_single search
    rw [beq_iff_eq, place] at depth
    refine ⟨0, ?_⟩
    dsimp only
    rw [place, read]
    exact .word rfl depth heads named complete
  · obtain ⟨found, inside, member⟩ := List.mem_flatMap.mp destructured
    obtain ⟨search, depth⟩ := List.mem_filter.mp inside
    obtain ⟨before, parts, after, rfl, place, read⟩ := exists_of_mem_search_destructuring search
    obtain ⟨entry, among, rfl⟩ := List.mem_map.mp member
    rw [read, parts.splitOn_inside] at among
    obtain ⟨entry, inside, rfl⟩ := List.mem_map.mp among
    obtain ⟨index, here⟩ := List.mem_iff_getElem?.mp inside
    rw [beq_iff_eq, place] at depth
    refine ⟨index, ?_⟩
    dsimp only
    rw [place]
    exact .entry rfl depth here

private theorem filter_found_of_word {before head name after : List Char}
    (depth : (encode (before ++ (head ++ (name ++ after)))).depthAt (encode before).length = 0)
    (edge : ∀ c ∈ before.getLast?, CharacterClass.wordOrDollar c.toNat = false)
    (heads : Head head) (clear : lastWord before ∉ keywords) (plain : Plain name)
    (complete : ∀ c ∈ after.head?, CharacterClass.wordOrDollar c.toNat = false) :
    ∃ later, (found (encode (before ++ (head ++ (name ++ after))))).filter
        (·.1 == (encode before).length) = ((encode before).length, encode name) :: later := by
  have member := single_mem_search heads edge clear plain.isName complete
  rw [filter_found, filter_outside (steps_single _) member rfl depth, List.flatMap_cons, readSingle,
    slice_name]
  exact ⟨_, rfl⟩

private theorem filter_found_of_entry {before after : List Char} (parts : Destructuring)
    (depth : (encode (before ++ (parts.spelled ++ after))).depthAt (encode before).length = 0)
    (edge : ∀ c ∈ before.getLast?, CharacterClass.wordOrDollar c.toNat = false) :
    (found (encode (before ++ (parts.spelled ++ after)))).filter
        (·.1 == (encode before).length) =
      parts.entries.map fun entry => ((encode before).length, boundBy (encode entry)) := by
  have member := @Destructuring.mem_search before after parts edge
  have nothing : (outside single (encode (before ++ (parts.spelled ++ after)))).filter
      (·.span.start == (encode before).length) = [] := by
    refine List.filter_eq_nil_iff.mpr fun found inside => ?_
    rw [beq_iff_eq]
    exact parts.start_ne (List.mem_filter.mp inside).1
  rw [filter_found, nothing, filter_outside (steps_destructuring _) member rfl depth,
    List.flatMap_nil, List.nil_append, List.flatMap_singleton, readEntries, parts.splitOn_inside,
    List.map_map]
  rfl

end Found

section Order

variable {masked name : Text} {place : Place}

theorem Place.Before.trans {first second third : Place} (before : first.Before second)
    (behind : second.Before third) : first.Before third := by
  unfold Place.Before at *
  omega

/-- What is exposed is read where it is declared. -/
theorem Exposes.reads (exposes : Exposes masked place name) : Reads masked place name := by
  cases exposes with
  | word shape outside _ heads _ plain complete =>
    exact .word shape outside (.inl heads) plain.isName complete
  | entry shape outside _ here slot plain =>
    have reads := Reads.entry shape outside here
    rwa [boundBy_of_slot plain slot] at reads

/-- An exposed name is a plain identifier that names no temporary. -/
theorem Exposes.plain (exposes : Exposes masked place name) :
    name.isIdentifier = true ∧ name.startsWith temporaryStem = false := by
  cases exposes with
  | word _ _ _ _ _ plain _ => exact plain
  | entry _ _ _ _ _ plain => exact plain

/-- What is found in source order, without what is no name and what names a temporary. -/
private def kept (masked : Text) : List Text :=
  ((SourceOrder.sort Prod.fst (found masked)).map Prod.snd).filter fun name =>
    name.isIdentifier && !name.startsWith temporaryStem

private theorem names_eq (body : Text) : names body = (kept (Text.mask body)).eraseDups := rfl

private theorem exists_parts_of_filter {characters : List Char} {start index : Nat} {name : Text}
    {front behind : List (Nat × Text)}
    (here : (found (encode characters)).filter (·.1 == start) = front ++ (start, name) :: behind)
    (earlier : ∀ item ∈ front, ∃ place : Place, place.Before ⟨start, index⟩ ∧
      Reads (encode characters) place item.2)
    (plain : name.isIdentifier = true ∧ name.startsWith temporaryStem = false) :
    ∃ earlier later, kept (encode characters) = earlier ++ name :: later ∧
      ∀ other ∈ earlier, ∃ place : Place, place.Before ⟨start, index⟩ ∧
        Reads (encode characters) place other := by
  obtain ⟨lower, higher, split, inFront, -⟩ :=
    SourceOrder.exists_parts Prod.fst (found (encode characters)) start
  have stays : (name.isIdentifier && !name.startsWith temporaryStem) = true := by
    rw [plain.1, plain.2]
    rfl
  have shape : SourceOrder.sort Prod.fst (found (encode characters)) =
      (lower ++ front) ++ (start, name) :: (behind ++ higher) := by
    rw [split, here]
    simp
  let stay (name : Text) : Bool := name.isIdentifier && !name.startsWith temporaryStem
  refine ⟨((lower ++ front).map Prod.snd).filter stay,
    ((behind ++ higher).map Prod.snd).filter stay, ?_, fun other member => ?_⟩
  · rw [kept, shape, List.map_append, List.map_cons, List.filter_append, List.filter_cons,
      if_pos stays]
  · obtain ⟨item, inside, rfl⟩ := List.mem_map.mp (List.mem_filter.mp member).1
    rcases List.mem_append.mp inside with below | beside
    · have among : item ∈ found (encode characters) := by
        have sorted : item ∈ SourceOrder.sort Prod.fst (found (encode characters)) := by
          rw [split]
          exact List.mem_append_left _ (List.mem_append_left _ below)
        exact SourceOrder.mem_of_mem_sort sorted
      obtain ⟨index, reads⟩ := exists_reads among
      exact ⟨⟨item.1, index⟩, .inl (inFront item below), reads⟩
    · exact earlier item beside

private theorem Exposes.exists_parts (exposes : Exposes masked place name) :
    ∃ earlier later, kept masked = earlier ++ name :: later ∧
      ∀ other ∈ earlier, ∃ first : Place, first.Before place ∧ Reads masked first other := by
  have plain := exposes.plain
  cases exposes with
  | word shape depth edge heads clear named complete =>
    subst shape
    obtain ⟨later, here⟩ := filter_found_of_word depth edge heads clear named complete
    rw [← List.nil_append (_ :: later)] at here
    exact exists_parts_of_filter here (by simp) plain
  | @entry before after entry name parts index shape depth edge here slot named =>
    subst shape
    obtain ⟨inside, rfl⟩ := List.getElem?_eq_some_iff.mp here
    have read := filter_found_of_entry parts depth edge
    rw [← List.take_append_drop index parts.entries, List.drop_eq_getElem_cons inside,
      List.map_append, List.map_cons, boundBy_of_slot named slot] at read
    refine exists_parts_of_filter read (fun item member => ?_) plain
    obtain ⟨entry, among, rfl⟩ := List.mem_map.mp member
    obtain ⟨first, there⟩ := List.mem_iff_getElem?.mp among
    rw [List.getElem?_take] at there
    split at there
    · next below =>
      refine ⟨⟨(encode before).length, first⟩, .inr ⟨rfl, below⟩, ?_⟩
      dsimp only
      exact .entry rfl depth there
    · contradiction

private theorem Exposes.mem_kept (exposes : Exposes masked place name) : name ∈ kept masked := by
  obtain ⟨earlier, later, split, -⟩ := exposes.exists_parts
  rw [split]
  exact List.mem_append_right _ List.mem_cons_self

/-- Whether a name is declared at a place, and nothing in front of the place is read as it. -/
structure Introduces (masked : Text) (place : Place) (name : Text) : Prop where
  exposes : Exposes masked place name
  first : ∀ earlier : Place, earlier.Before place → ¬Reads masked earlier name

private theorem Introduces.pair_sublist {second : Place} {other : Text}
    (introduces : Introduces masked place name) (later : Introduces masked second other)
    (before : place.Before second) : [name, other].Sublist (kept masked).eraseDups := by
  obtain ⟨earlier, behind, split, reads⟩ := introduces.exposes.exists_parts
  have nameNew : name ∉ earlier := by
    intro member
    obtain ⟨first, order, read⟩ := reads name member
    exact introduces.first first order read
  have otherNew : other ∉ earlier := by
    intro member
    obtain ⟨first, order, read⟩ := reads other member
    exact later.first first (order.trans before) read
  have apart : other ≠ name := by
    rintro rfl
    exact later.first place before introduces.exposes.reads
  have member := later.exposes.mem_kept
  rw [split] at member ⊢
  have inside : other ∈ behind := by
    rcases List.mem_append.mp member with inFront | member
    · exact absurd inFront otherNew
    · exact (List.mem_cons.mp member).resolve_left apart
  exact SourceOrder.pair_sublist_eraseDups nameNew otherNew apart inside

/-- Each name is listed once. What is exposed is listed, and names are listed in the order in which
they are introduced. -/
theorem names_of_exposes (body : Text) :
    (names body).Nodup ∧
      (∀ place name, Exposes (Text.mask body) place name → name ∈ names body) ∧
      ∀ introduced : List (Place × Text),
        (∀ item ∈ introduced, Introduces (Text.mask body) item.1 item.2) →
          introduced.Pairwise (fun first second => first.1.Before second.1) →
            (introduced.map Prod.snd).Sublist (names body) := by
  have listed {place : Place} {name : Text} (exposes : Exposes (Text.mask body) place name) :
      name ∈ names body := by
    rw [names_eq]
    exact List.mem_eraseDups.mpr exposes.mem_kept
  refine ⟨SourceOrder.nodup_eraseDups _, fun place name => listed, ?_⟩
  intro introduced introduces ordered
  refine SourceOrder.sublist_of_pairs (SourceOrder.nodup_eraseDups _) ?_ ?_
  · intro name member
    obtain ⟨item, inside, rfl⟩ := List.mem_map.mp member
    exact listed (introduces item inside).exposes
  · refine List.pairwise_map.mpr (ordered.imp_of_mem fun {first second} inside member before => ?_)
    exact (introduces first inside).pair_sublist (introduces second member) before

/-- Where a destructuring declaration is spelled, nothing but its entries is read. -/
theorem Destructuring.exists_of_reads {before after : List Char} (parts : Destructuring)
    (reads : Reads (encode (before ++ (parts.spelled ++ after))) place name)
    (here : place.start = (encode before).length) :
    ∃ entry, parts.entries[place.index]? = some entry ∧ name = boundBy (encode entry) := by
  cases reads with
  | word shape _ heads named complete =>
    obtain ⟨-, same⟩ := append_inj_of_place (encode_injective shape) here.symm
    exact absurd same.symm (parts.not_single heads named complete)
  | @entry front behind entry other index shape _ inside =>
    obtain ⟨-, same⟩ := append_inj_of_place (encode_injective shape) here.symm
    obtain ⟨rfl, -⟩ := Destructuring.unique same
    exact ⟨entry, inside, rfl⟩

private def aliased : Destructuring where
  keyword := "const".toList
  gap := " ".toList
  content := " a, b: c ".toList
  more := " ".toList
  isVariable := by decide
  gapBlank := by decide
  braceless := forall_mem_of_all (by decide)
  moreBlank := by decide

private theorem mask_aliased : Text.mask "const { a, b: c } = o" =
    encode ([] ++ (aliased.spelled ++ " o".toList)) := by decide +kernel

private theorem introduces_a : Introduces (Text.mask "const { a, b: c } = o") ⟨0, 0⟩ "a" where
  exposes := by
    have slot : Slot " a".toList "a".toList := by
      have spells := @Entry.mk [] _ "a".toList " ".toList [] [] [] 0 rfl (by simp) (by decide)
        (by decide) (by decide) (by simp)
      exact ⟨[], spells, by decide⟩
    have here : aliased.entries[0]? = some " a".toList := by decide
    rw [mask_aliased]
    change Exposes _ ⟨(encode []).length, 0⟩ (encode "a".toList)
    exact .entry rfl (by decide +kernel) (by simp) here slot (by decide)
  first := by
    intro earlier before
    simp [Place.Before] at before

private theorem introduces_c : Introduces (Text.mask "const { a, b: c } = o") ⟨0, 1⟩ "c" where
  exposes := by
    have slot : Slot " b: c ".toList "c".toList := by
      have spells := @Entry.mk " b:".toList _ "c".toList " ".toList [] " ".toList [] 0 rfl
        (by simp) (by decide) (by decide) (by decide) (by simp)
      exact ⟨" b:".toList, spells, by decide⟩
    have here : aliased.entries[1]? = some " b: c ".toList := by decide
    rw [mask_aliased]
    change Exposes _ ⟨(encode []).length, 1⟩ (encode "c".toList)
    exact .entry rfl (by decide +kernel) (by simp) here slot (by decide)
  first := by
    intro earlier before reads
    obtain ⟨start, index⟩ := earlier
    obtain ⟨rfl, rfl⟩ : start = 0 ∧ index = 0 := by simpa [Place.Before] using before
    rw [mask_aliased] at reads
    obtain ⟨entry, here, read⟩ := aliased.exists_of_reads reads rfl
    obtain rfl : " a".toList = entry := Option.some.inj here
    exact absurd read (by decide)

/-- An alias is listed behind the name in front of it. -/
theorem names_of_exposes_alias :
    Introduces (Text.mask "const { a, b: c } = o") ⟨0, 0⟩ "a" ∧
      Introduces (Text.mask "const { a, b: c } = o") ⟨0, 1⟩ "c" ∧
        (["a", "c"] : List Text).Sublist (names "const { a, b: c } = o") := by
  refine ⟨introduces_a, introduces_c, (names_of_exposes "const { a, b: c } = o").2.2
    [(⟨0, 0⟩, "a"), (⟨0, 1⟩, "c")] ?_ ?_⟩
  · intro item member
    rcases List.mem_cons.mp member with rfl | member
    · exact introduces_a
    · obtain rfl := List.mem_singleton.mp member
      exact introduces_c
  · simp [Place.Before]

/-- Of several declarators only the first one is listed. -/
theorem not_names_of_declarators :
    ¬∀ first second : List Char, Plain first → Plain second →
      encode second ∈ names (encode ("const ".toList ++ first ++ " = 1, ".toList ++ second ++
        " = 2".toList)) := by
  intro listed
  have member := listed "a".toList "b".toList (by decide) (by decide)
  exact absurd member (by decide +kernel)

end Order

end Declaration

end BareComponent
