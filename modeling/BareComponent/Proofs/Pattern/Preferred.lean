import BareComponent.Proofs.Pattern.Found

/-! # Which match is preferred

Of all ways to match a search settles on the one that is listed first. A pattern in sequence with
another lists first what goes on from the first way to match, a greedy repetition prefers to pass as
much as it can, and an optional part is preferred to be there. Of all places where something
matches, a search settles on the first.
-/

namespace BareComponent

open Cursor

private theorem Cursor.getLast?_passing (members : CharacterClass) (limit : Nat)
    (cursor : Cursor) :
    (cursor.passing members limit).getLast? = some (cursor.skipUpTo members limit) := by
  induction limit generalizing cursor with
  | zero => rfl
  | succ limit ih =>
    rw [passing, skipUpTo]
    split
    · rfl
    · next count _ =>
      rw [List.getLast?_cons, ih, Option.getD_some]

namespace Pattern

variable {α β : Type} {pattern : Pattern α} {start middle : Cursor} {value : α}

/-- A preferred match that consumes something is what a search settles on. -/
theorem matchAt?_of_head? {next : Cursor} (first : (pattern start).head? = some (value, next))
    (forward : start.position < next.position) :
    matchAt? pattern start = some ⟨⟨start.position, next.position⟩, value⟩ := by
  obtain ⟨others, shape⟩ := List.head?_eq_some_iff.mp first
  rw [matchAt?, shape]
  exact if_pos forward

/-- A sequence goes on from the only match of its first part. -/
theorem bind_of_eq_singleton {next : α → Pattern β} (only : pattern start = [(value, middle)]) :
    (pattern >>= next) start = next value middle := by
  have bindEq : (pattern >>= next) start =
      (pattern start).flatMap fun read => next read.1 read.2 := rfl
  rw [bindEq, only, List.flatMap_singleton]

/-- A sequence goes on from the preferred match of its first part, if it can. -/
theorem head?_bind {next : α → Pattern β} {read : β × Cursor}
    (first : (pattern start).head? = some (value, middle))
    (second : (next value middle).head? = some read) :
    ((pattern >>= next) start).head? = some read := by
  obtain ⟨others, shape⟩ := List.head?_eq_some_iff.mp first
  have bindEq : (pattern >>= next) start =
      (pattern start).flatMap fun read => next read.1 read.2 := rfl
  rw [bindEq, shape, List.flatMap_cons, List.head?_append, second, Option.some_or]

/-- What goes on from an optional part that is there is listed first. -/
theorem optional_bind (pattern : Pattern α) (next : Option α → Pattern β) (start : Cursor) :
    (optional pattern >>= next) start =
      (pattern >>= fun value => next (some value)) start ++ next none start := by
  simp [bind, optional, List.flatMap_append, List.flatMap_map]

theorem head?_many (members : CharacterClass) (cursor : Cursor) :
    (many members cursor).head? = some ((), cursor.skip members) := by
  rw [many, List.head?_map, List.head?_reverse, within, getLast?_passing, Option.map_some, skip]

/-- A greedy repetition prefers to pass all characters of its class. -/
theorem head?_many1 {members : CharacterClass} {gap rest : List Char} (before : List Char)
    (nonempty : gap ≠ []) (inside : ∀ c ∈ gap, members c.toNat = true)
    (stops : ∀ c ∈ rest.head?, members c.toNat = false) :
    (many1 members (between before (gap ++ rest))).head? =
      some ((), between (before ++ gap) rest) := by
  obtain ⟨c, more, rfl⟩ := List.exists_cons_of_ne_nil nonempty
  obtain ⟨here, others⟩ := List.forall_mem_cons.mp inside
  have first : (character members (between before (c :: more ++ rest))).head? =
      some ((), between (before ++ [c]) (more ++ rest)) := by
    rw [List.cons_append, character_between, if_pos here]
    rfl
  have passed : ((), between (before ++ c :: more) rest) ∈
      run members (between (before ++ [c]) (more ++ rest)) :=
    mem_run.mpr ⟨more, rest, rfl, others, stops, by simp⟩
  have second := head?_many members (between (before ++ [c]) (more ++ rest))
  rw [← List.mem_singleton.mp passed] at second
  exact head?_bind first second

section First

variable {found : Match α} {front characters : List Char}

private theorem head?_searchBehind_eq_some_iff :
    (searchBehind pattern front characters).head? = some found ↔
      ∃ before c rest, characters = before ++ c :: rest ∧
        matchAt? pattern (between (front ++ before) (c :: rest)) = some found ∧
        ∀ first second, before = first ++ second → second ≠ [] →
          matchAt? pattern (between (front ++ first) (second ++ c :: rest)) = none := by
  induction characters generalizing front with
  | nil => simp
  | cons d characters ih =>
    cases here : matchAt? pattern (between front (d :: characters)) with
    | some other =>
      rw [head?_searchBehind here]
      constructor
      · intro same
        obtain rfl := Option.some.inj same
        refine ⟨[], d, characters, rfl, by rwa [List.append_nil], fun first second split => ?_⟩
        simp [(List.append_eq_nil_iff.mp split.symm).2]
      · rintro ⟨before, c, rest, split, reads, clear⟩
        cases before with
        | nil =>
          obtain ⟨rfl, rfl⟩ := List.cons.inj split
          rwa [← here, ← List.append_nil front]
        | cons e before =>
          have fails := clear [] (e :: before) rfl (List.cons_ne_nil _ _)
          rw [List.append_nil, ← split, here] at fails
          contradiction
    | none =>
      rw [searchBehind_of_none here, ih]
      constructor
      · rintro ⟨before, c, rest, rfl, reads, clear⟩
        refine ⟨d :: before, c, rest, rfl, by simpa using reads,
          fun first second split nonempty => ?_⟩
        cases first with
        | nil =>
          obtain rfl : d :: before = second := split
          rwa [List.append_nil]
        | cons e first =>
          obtain ⟨rfl, rfl⟩ := List.cons.inj split
          simpa using clear first second rfl nonempty
      · rintro ⟨before, c, rest, split, reads, clear⟩
        cases before with
        | nil =>
          obtain ⟨rfl, rfl⟩ := List.cons.inj split
          rw [List.append_nil, here] at reads
          contradiction
        | cons e before =>
          obtain ⟨rfl, rfl⟩ := List.cons.inj split
          refine ⟨before, c, rest, rfl, by simpa using reads, fun first second split nonempty => ?_⟩
          simpa using clear (d :: first) second (congrArg (d :: ·) split) nonempty

/-- What is found first is what matches at the first place where anything does. -/
theorem find?_encode_eq_some_iff :
    find? pattern (Text.encode characters) = some found ↔
      ∃ before c rest, characters = before ++ c :: rest ∧
        matchAt? pattern (between before (c :: rest)) = some found ∧
        ∀ first second, before = first ++ second → second ≠ [] →
          matchAt? pattern (between first (second ++ c :: rest)) = none := by
  rw [find?, search_encode, head?_searchBehind_eq_some_iff]
  rfl

end First

end Pattern

end BareComponent
