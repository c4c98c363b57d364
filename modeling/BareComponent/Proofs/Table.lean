import BareComponent.Table

/-! # What a table answers

A lookup sees a table only through the last value that was given for its key. An insertion, a run
of insertions and a merge are each stated by what a lookup answers behind it; since a table has
one entry for each key, an entry is in it exactly if a lookup finds it.
-/

namespace BareComponent.Table

variable {α : Type}

private theorem lookup_entry_cons (key : Text) (value : α) (rest : List (Text × α))
    (sought : Text) : List.lookup sought ((key, value) :: rest) =
      if sought = key then some value else rest.lookup sought := by
  rw [List.lookup_cons]
  by_cases same : sought = key
  · simp [same]
  · simp [same, beq_eq_false_iff_ne.mpr same]

/-- An entry put among others answers for its own key and hides the one that was there. -/
theorem lookup_insertEntry (key : Text) (value : α) (entries : List (Text × α)) (sought : Text) :
    (insertEntry key value entries).lookup sought =
      if sought = key then some value else entries.lookup sought := by
  induction entries with
  | nil => rw [insertEntry, lookup_entry_cons]
  | cons head rest ih =>
    obtain ⟨other, old⟩ := head
    unfold insertEntry
    split
    · rw [lookup_entry_cons]
    · split
      · next replaced =>
        rw [lookup_entry_cons, lookup_entry_cons, ← replaced]
        split <;> rfl
      · next differs =>
        rw [lookup_entry_cons, lookup_entry_cons, ih]
        by_cases here : sought = other
        · have elsewhere : sought ≠ key := fun same => differs (same.symm.trans here)
          rw [if_pos here, if_neg elsewhere, if_pos here]
        · rw [if_neg here, if_neg here]

/-- The empty table answers nothing. -/
@[simp] theorem get?_empty (key : Text) : (empty : Table α).get? key = none := rfl

/-- An inserted value is found under its key, and every other key answers as before. -/
@[simp] theorem get?_insert (table : Table α) (key : Text) (value : α) (sought : Text) :
    (table.insert key value).get? sought = if sought = key then some value else table.get? sought :=
  lookup_insertEntry key value table.entries sought

/-- Of the values inserted under a key the last one is found. -/
theorem get?_insertAll (table : Table α) (entries : List (Text × α)) (key : Text) :
    (table.insertAll entries).get? key = (entries.reverse.lookup key).or (table.get? key) := by
  induction entries generalizing table with
  | nil => rfl
  | cons head rest ih =>
    obtain ⟨first, value⟩ := head
    have step : table.insertAll ((first, value) :: rest) =
      (table.insert first value).insertAll rest := rfl
    rw [step, ih, get?_insert, List.reverse_cons, List.lookup_append, Option.or_assoc,
      lookup_entry_cons]
    split <;> rfl

/-- Of the entries that a table is made of the last one with a key is found. -/
theorem get?_ofList (entries : List (Text × α)) (key : Text) :
    (ofList entries).get? key = entries.reverse.lookup key := by
  rw [ofList, get?_insertAll, get?_empty, Option.or_none]

/-- A lookup finds exactly the entries of a table. -/
theorem get?_eq_some_iff (table : Table α) (key : Text) (value : α) :
    table.get? key = some value ↔ (key, value) ∈ table.entries := by
  obtain ⟨entries, rising⟩ := table
  change entries.lookup key = some value ↔ (key, value) ∈ entries
  induction entries with
  | nil => simp
  | cons head rest ih =>
    obtain ⟨first, held⟩ := head
    have above := (List.pairwise_cons.mp rising).1
    rw [lookup_entry_cons, List.mem_cons, Prod.mk.injEq]
    by_cases same : key = first
    · have only : (key, value) ∉ rest := fun later =>
        List.lt_irrefl key (same ▸ above (key, value) later)
      simp [same, same ▸ only, eq_comm]
    · simp [same, ih (List.pairwise_cons.mp rising).2]

/-- A table has a key exactly if an entry has it. -/
theorem hasKey_iff (table : Table α) (key : Text) :
    table.hasKey key = true ↔ ∃ value, (key, value) ∈ table.entries := by
  simp [hasKey, Option.isSome_iff_exists, get?_eq_some_iff]

/-- From the back of a table the entry with the greatest key is found first. -/
theorem find?_reverse_entries_eq_some_iff (table : Table α) (chosen : Text × α → Bool)
    (entry : Text × α) : table.entries.reverse.find? chosen = some entry ↔
      entry ∈ table.entries ∧ chosen entry = true ∧
        ∀ other ∈ table.entries, chosen other = true → other.1 ≤ entry.1 := by
  have greatest : ∀ {picked}, table.entries.reverse.find? chosen = some picked →
      picked ∈ table.entries ∧ chosen picked = true ∧
        ∀ other ∈ table.entries, chosen other = true → other.1 ≤ picked.1 := by
    intro picked found
    obtain ⟨holds, behind, before, same, passed⟩ := List.find?_eq_some_iff_append.mp found
    have split : table.entries = before.reverse ++ picked :: behind.reverse := by
      simpa using congrArg List.reverse same
    have rising := table.rising
    rw [split] at rising ⊢
    refine ⟨by simp, holds, fun other member otherHolds => ?_⟩
    rcases List.mem_append.mp member with earlier | later
    · exact List.le_of_lt ((List.pairwise_append.mp rising).2.2 other earlier picked
        List.mem_cons_self)
    · rcases List.mem_cons.mp later with rfl | later
      · exact List.le_refl other.1
      · have fails := passed other (List.mem_reverse.mp later)
        rw [otherHolds] at fails
        exact absurd fails Bool.false_ne_true
  refine ⟨greatest, fun ⟨member, holds, above⟩ => ?_⟩
  cases found : table.entries.reverse.find? chosen with
  | none =>
    exact absurd holds (List.find?_eq_none.mp found entry (List.mem_reverse.mpr member))
  | some picked =>
    obtain ⟨pickedMember, pickedHolds, pickedAbove⟩ := greatest found
    have sameKey : picked.1 = entry.1 :=
      List.le_antisymm (above picked pickedMember pickedHolds) (pickedAbove entry member holds)
    have first := (table.get?_eq_some_iff picked.1 picked.2).mpr pickedMember
    have second := (table.get?_eq_some_iff entry.1 entry.2).mpr member
    rw [sameKey, second] at first
    exact congrArg some (Prod.ext sameKey (Option.some.inj first).symm)

private theorem lookup_reverse_of_rising {entries : List (Text × α)}
    (rising : entries.Pairwise fun left right => left.1 < right.1) (key : Text) :
    entries.reverse.lookup key = entries.lookup key := by
  induction entries with
  | nil => rfl
  | cons head rest ih =>
    obtain ⟨first, held⟩ := head
    obtain ⟨above, restRising⟩ := List.pairwise_cons.mp rising
    rw [List.reverse_cons, List.lookup_append, ih restRising, lookup_entry_cons,
      lookup_entry_cons]
    by_cases same : key = first
    · have absent : rest.lookup key = none := List.lookup_eq_none_iff.mpr fun entry member =>
        bne_iff_ne.mpr fun equal : key = entry.1 =>
          List.lt_irrefl first ((same.symm.trans equal) ▸ above entry member)
      simp [same, same ▸ absent]
    · simp [same]

/-- Tables that answer the same are the same. -/
theorem ext_get? {first second : Table α} (same : ∀ key, first.get? key = second.get? key) :
    first = second := by
  have nodup (table : Table α) : table.entries.Nodup :=
    table.rising.imp fun {left right} (below : left.1 < right.1) (equal : left = right) =>
      List.lt_irrefl right.1 (equal ▸ below)
  have members : first.entries.Perm second.entries :=
    (List.perm_ext_iff_of_nodup (nodup first) (nodup second)).mpr fun entry => by
      rw [← get?_eq_some_iff, ← get?_eq_some_iff, same]
  have entries : first.entries = second.entries :=
    members.eq_of_pairwise (fun left right _ _ below above =>
      absurd (List.lt_trans below above) (List.lt_irrefl _)) first.rising second.rising
  cases first
  cases second
  exact (Table.mk.injEq ..).mpr entries

/-- A table is made of its own entries. -/
@[simp] theorem ofList_entries (table : Table α) : ofList table.entries = table :=
  ext_get? fun key => by
    rw [get?_ofList, lookup_reverse_of_rising table.rising]
    rfl

/-- Where two tables are merged, the second one answers before the first. -/
@[simp] theorem get?_merge (first second : Table α) (key : Text) :
    (first.merge second).get? key = (second.get? key).or (first.get? key) := by
  rw [merge, get?_insertAll, lookup_reverse_of_rising second.rising]
  rfl

end BareComponent.Table
