import BareComponent.Proofs.Pattern.Found

/-! # Searching a text in parts

What some patterns take at a place is told by the characters in front and by the stretch that they
take, never by what stands behind. A search for such a pattern can be cut wherever no match reaches
over the cut: it finds in the first part what it finds there alone, and goes on in the second part. A
detached pattern does not look at the characters in front either, so that it finds in the second part
what it finds there alone.
-/

namespace BareComponent

namespace Match

variable {α : Type}

/-- The same match seen from a text that has `count` more bytes in front. -/
def shift (found : Match α) (count : Nat) : Match α := ⟨found.span.shift count, found.value⟩

/-- Whether a match stands on one side of a place. -/
def Beside (found : Match α) (place : Nat) : Prop :=
  found.span.stop ≤ place ∨ place ≤ found.span.start

end Match

namespace Pattern

open Cursor Text

variable {α : Type}

/-- Whether a pattern takes a stretch with a value if and only if it takes it so behind the
characters in front, whatever stands behind. -/
def Reads (pattern : Pattern α) (takes : List Char → List Char → α → Prop) : Prop :=
  ∀ before after found, matchAt? pattern (between before after) = some found ↔
    ∃ passed rest, after = passed ++ rest ∧ passed ≠ [] ∧ takes before passed found.value ∧
      found.span = ⟨(encode before).length, (encode (before ++ passed)).length⟩

/-- A pattern whose matches are the stretches that are taken, at most one of them at each place, reads
them. -/
theorem reads_of_mem {pattern : Pattern α} {takes : List Char → List Char → α → Prop}
    (mem : ∀ before after value cursor, (value, cursor) ∈ pattern (between before after) ↔
      ∃ passed rest, after = passed ++ rest ∧ takes before passed value ∧
        cursor = between (before ++ passed) rest)
    (nonempty : ∀ before passed value, takes before passed value → passed ≠ [])
    (unique : ∀ before passed other rest behind value another, takes before passed value →
      takes before other another → passed ++ rest = other ++ behind →
        other = passed ∧ another = value) : Reads pattern takes := by
  intro before after found
  constructor
  · intro here
    obtain ⟨next, matched, span, -⟩ := exists_of_matchAt? here
    obtain ⟨passed, rest, rfl, taken, rfl⟩ := (mem _ _ _ _).mp matched
    exact ⟨passed, rest, rfl, nonempty _ _ _ taken, taken, by simpa using span⟩
  · rintro ⟨passed, rest, rfl, passedNonempty, taken, span⟩
    rw [matchAt?_of_unique passedNonempty ((mem _ _ _ _).mpr ⟨passed, rest, rfl, taken, rfl⟩),
      ← span]
    intro another cursor member
    obtain ⟨other, behind, split, otherTaken, rfl⟩ := (mem _ _ _ _).mp member
    obtain ⟨rfl, rfl⟩ := unique _ _ _ _ _ _ _ taken otherTaken split
    exact ⟨rfl, by rw [List.append_cancel_left split]⟩

namespace Reads

variable {pattern : Pattern α} {takes : List Char → List Char → α → Prop} {found : Match α}
  {before after rest : List Char}

/-- What is taken at a place is what matches there. -/
theorem matchAt?_eq_some (reads : Reads pattern takes) {passed : List Char} {value : α}
    (nonempty : passed ≠ []) (taken : takes before passed value) (rest : List Char) :
    matchAt? pattern (between before (passed ++ rest)) =
      some ⟨⟨(encode before).length, (encode (before ++ passed)).length⟩, value⟩ :=
  (reads _ _ _).mpr ⟨passed, rest, rfl, nonempty, taken, rfl⟩

/-- Nothing matches exactly if nothing is taken. -/
theorem matchAt?_eq_none_iff (reads : Reads pattern takes) :
    matchAt? pattern (between before after) = none ↔
      ∀ passed rest value, after = passed ++ rest → passed ≠ [] → ¬takes before passed value := by
  constructor
  · rintro fails passed rest value rfl nonempty taken
    rw [reads.matchAt?_eq_some nonempty taken] at fails
    contradiction
  · intro untaken
    refine Option.eq_none_iff_forall_ne_some.mpr fun found here => ?_
    obtain ⟨passed, rest, split, nonempty, taken, -⟩ := (reads _ _ _).mp here
    exact untaken passed rest _ split nonempty taken

/-- A search settles on a stretch that is taken where it stands, and otherwise goes on behind the
next character. -/
theorem searchBehind_cons (reads : Reads pattern takes) (before : List Char) (c : Char)
    (after : List Char) :
    (matchAt? pattern (between before (c :: after)) = none ∧
      searchBehind pattern before (c :: after) = searchBehind pattern (before ++ [c]) after) ∨
    ∃ passed rest value, c :: after = passed ++ rest ∧ passed ≠ [] ∧ takes before passed value ∧
      searchBehind pattern before (c :: after) =
        ⟨⟨(encode before).length, (encode (before ++ passed)).length⟩, value⟩ ::
          searchBehind pattern (before ++ passed) rest := by
  cases here : matchAt? pattern (between before (c :: after)) with
  | none => exact .inl ⟨rfl, searchBehind_of_none here⟩
  | some found =>
    obtain ⟨passed, rest, split, nonempty, taken, -⟩ := (reads _ _ _).mp here
    refine .inr ⟨passed, rest, found.value, split, nonempty, taken, ?_⟩
    rw [split]
    exact searchBehind_of_some (reads.matchAt?_eq_some nonempty taken rest) nonempty

/-- A search is cut at a place over which no match reaches. -/
theorem searchBehind_append (reads : Reads pattern takes)
    (apart : ∀ found ∈ searchBehind pattern before (after ++ rest),
      found.Beside (encode (before ++ after)).length) :
    searchBehind pattern before (after ++ rest) =
      searchBehind pattern before after ++ searchBehind pattern (before ++ after) rest := by
  induction size : after.length using Nat.strongRecOn generalizing before after with
  | ind size ih =>
    subst size
    cases after with
    | nil => simp
    | cons c after =>
      rw [List.cons_append] at apart ⊢
      rcases reads.searchBehind_cons before c (after ++ rest) with
        ⟨fails, step⟩ | ⟨passed, last, value, split, nonempty, taken, step⟩
      · have failsAlone : matchAt? pattern (between before (c :: after)) = none := by
          rw [reads.matchAt?_eq_none_iff] at fails ⊢
          rintro passed last value split nonempty taken
          exact fails passed (last ++ rest) value
            (by rw [← List.cons_append, split, List.append_assoc]) nonempty taken
        rw [List.append_cons] at apart ⊢
        rw [step] at apart ⊢
        rw [searchBehind_of_none failsAlone]
        exact ih after.length (by simp) apart rfl
      · rw [step] at apart ⊢
        obtain ⟨first, others⟩ := List.forall_mem_cons.mp apart
        have inside : (encode passed).length ≤ (encode (c :: after)).length := by
          have := encode_singleton_pos c
          rcases first with stops | starts
          · simpa using stops
          · simp at starts this
            omega
        obtain ⟨more, whole, rfl⟩ :=
          exists_append_of_length_le (split.symm.trans (List.cons_append ..).symm) inside
        have shorter : more.length < (c :: after).length := by
          have := List.length_pos_iff.mpr nonempty
          rw [whole, List.length_append]
          omega
        rw [whole, ← List.append_assoc] at others ⊢
        rw [searchBehind_of_some (reads.matchAt?_eq_some nonempty taken more) nonempty,
          List.cons_append, ih more.length shorter others rfl]

/-- Characters in front that do not matter to what is taken move what is found and change nothing
else. -/
theorem searchBehind_append_front (reads : Reads pattern takes) {front : List Char} (moved : α → α)
    (unseen : ∀ before passed value, takes (front ++ before) passed value ↔
      ∃ other, takes before passed other ∧ moved other = value) (before after : List Char) :
    searchBehind pattern (front ++ before) after = (searchBehind pattern before after).map
      fun found => ⟨found.span.shift (encode front).length, moved found.value⟩ := by
  induction size : after.length using Nat.strongRecOn generalizing before after with
  | ind size ih =>
    subst size
    cases after with
    | nil => rfl
    | cons c after =>
      rcases reads.searchBehind_cons before c after with
        ⟨fails, step⟩ | ⟨passed, rest, value, split, nonempty, taken, step⟩
      · have failsThere : matchAt? pattern (between (front ++ before) (c :: after)) = none := by
          rw [reads.matchAt?_eq_none_iff] at fails ⊢
          intro passed rest value split nonempty taken
          obtain ⟨other, taken, -⟩ := (unseen _ _ _).mp taken
          exact fails passed rest other split nonempty taken
        rw [step, searchBehind_of_none failsThere, List.append_assoc]
        exact ih after.length (by simp) _ _ rfl
      · have there : takes (front ++ before) passed (moved value) :=
          (unseen _ _ _).mpr ⟨value, taken, rfl⟩
        have shorter : rest.length < (c :: after).length := by
          have := List.length_pos_iff.mpr nonempty
          rw [split, List.length_append]
          omega
        rw [step, split, searchBehind_of_some (reads.matchAt?_eq_some nonempty there rest) nonempty,
          List.append_assoc, ih rest.length shorter _ _ rfl]
        simp [Span.shift, Nat.add_comm]

/-- Behind a place over which no match reaches, a search goes on in the second part. -/
theorem search_cut (reads : Reads pattern takes) {first second : List Char}
    (apart : ∀ found ∈ search pattern (encode (first ++ second)),
      found.Beside (encode first).length) :
    search pattern (encode (first ++ second)) =
      search pattern (encode first) ++ searchBehind pattern first second := by
  rw [search_encode] at apart ⊢
  rw [reads.searchBehind_append apart, search_encode, List.nil_append]

/-- What is found in two parts of a text is what is found in each of them, if nothing that is taken
reaches over the cut or looks over it. -/
theorem search_append (reads : Reads pattern takes) {first second : List Char} (moved : α → α)
    (unseen : ∀ before passed value, takes (first ++ before) passed value ↔
      ∃ other, takes before passed other ∧ moved other = value)
    (apart : ∀ found ∈ search pattern (encode (first ++ second)),
      found.Beside (encode first).length) :
    search pattern (encode (first ++ second)) = search pattern (encode first) ++
      (search pattern (encode second)).map
        fun found => ⟨found.span.shift (encode first).length, moved found.value⟩ := by
  rw [reads.search_cut apart, search_encode pattern second,
    ← reads.searchBehind_append_front moved unseen, List.append_nil]

/-- What is found is taken where it stands. -/
theorem exists_of_mem_search (reads : Reads pattern takes) {characters : List Char}
    (member : found ∈ search pattern (encode characters)) :
    ∃ before passed rest, characters = before ++ passed ++ rest ∧ passed ≠ [] ∧
      takes before passed found.value ∧
      found.span = ⟨(encode before).length, (encode (before ++ passed)).length⟩ := by
  obtain ⟨before, after, rfl, here⟩ := Pattern.exists_of_mem_search member
  obtain ⟨passed, rest, rfl, nonempty, taken, span⟩ := (reads _ _ _).mp here
  exact ⟨before, passed, rest, (List.append_assoc ..).symm, nonempty, taken, span⟩

end Reads

/-- Whether a pattern matches a stretch if and only if it has some property, wherever it stands. -/
def Detached (pattern : Pattern Unit) (reads : List Char → Prop) : Prop :=
  ∀ before after found, matchAt? pattern (between before after) = some found ↔
    ∃ passed rest, after = passed ++ rest ∧ passed ≠ [] ∧ reads passed ∧
      found = ⟨⟨(encode before).length, (encode (before ++ passed)).length⟩, ()⟩

namespace Detached

variable {pattern : Pattern Unit} {reads : List Char → Prop} {found : Match Unit}

theorem reads_stretch (detached : Detached pattern reads) :
    Reads pattern fun _ passed _ => reads passed := by
  intro before after found
  rw [detached before after found]
  obtain ⟨span, value⟩ := found
  simp

/-- What is found in two parts of a text is what is found in each of them. -/
theorem search_append (detached : Detached pattern reads) {first second : List Char}
    (apart : ∀ found ∈ search pattern (encode (first ++ second)),
      found.Beside (encode first).length) :
    search pattern (encode (first ++ second)) = search pattern (encode first) ++
      (search pattern (encode second)).map (·.shift (encode first).length) :=
  detached.reads_stretch.search_append id (fun _ _ _ => by simp) apart

/-- What is found behind a place over which no match reaches is found in the whole text. -/
theorem shift_mem_search (detached : Detached pattern reads) {first second : List Char}
    (apart : ∀ found ∈ search pattern (encode (first ++ second)),
      found.Beside (encode first).length)
    (member : found ∈ search pattern (encode second)) :
    found.shift (encode first).length ∈ search pattern (encode (first ++ second)) := by
  rw [detached.search_append apart]
  exact List.mem_append_right _ (List.mem_map_of_mem member)

/-- What is found stands inside the text and takes some of it. -/
theorem span_of_mem_search (detached : Detached pattern reads) {characters : List Char}
    (member : found ∈ search pattern (encode characters)) :
    found.span.start < found.span.stop ∧ found.span.stop ≤ (encode characters).length := by
  obtain ⟨before, passed, rest, rfl, nonempty, -, span⟩ :=
    detached.reads_stretch.exists_of_mem_search member
  have someByte := List.length_pos_iff.mpr (mt eq_nil_of_encode nonempty)
  simp only [span, encode_append, List.length_append]
  omega

end Detached

end Pattern

end BareComponent
