import BareComponent.Text.Basic

/-! # Tables and name sets

A table maps texts to values and lists its entries in rising order of their keys, byte by byte,
which for UTF-8 is the order of code points. The order of a table says nothing about how it was
built. A set of names is a table whose values say nothing.
-/

namespace BareComponent

/-- Entries in rising order of their keys, one for each key. -/
structure Table (α : Type) where
  entries : List (Text × α)
  rising : entries.Pairwise fun left right => left.1 < right.1
deriving DecidableEq, Repr

namespace Table

variable {α : Type}

def empty : Table α := ⟨[], .nil⟩

instance : Inhabited (Table α) := ⟨empty⟩

def isEmpty (table : Table α) : Bool := table.entries.isEmpty

def get? (table : Table α) (key : Text) : Option α := table.entries.lookup key

def hasKey (table : Table α) (key : Text) : Bool := (table.get? key).isSome

def keys (table : Table α) : List Text := table.entries.map Prod.fst

/-- Puts an entry in its place among entries in rising order, or in place of the one under its
key. -/
def insertEntry (key : Text) (value : α) : List (Text × α) → List (Text × α)
  | [] => [(key, value)]
  | (other, old) :: rest =>
    if key < other then (key, value) :: (other, old) :: rest
    else if key = other then (key, value) :: rest
    else (other, old) :: insertEntry key value rest

/-- What is put among entries is all that comes to them. -/
theorem mem_insertEntry {key : Text} {value : α} {entries : List (Text × α)} {entry : Text × α}
    (member : entry ∈ insertEntry key value entries) : entry = (key, value) ∨ entry ∈ entries := by
  induction entries with
  | nil => simpa [insertEntry] using member
  | cons head rest ih =>
    obtain ⟨other, old⟩ := head
    unfold insertEntry at member
    split at member
    · simpa using member
    · split at member
      · rcases List.mem_cons.mp member with same | later
        · exact .inl same
        · exact .inr (List.mem_cons_of_mem _ later)
      · rcases List.mem_cons.mp member with same | later
        · exact .inr (same ▸ List.mem_cons_self)
        · exact (ih later).imp_right (List.mem_cons_of_mem _)

/-- Entries stay in rising order when one is put in its place. -/
theorem insertEntry_rising {key : Text} {value : α} {entries : List (Text × α)}
    (rising : entries.Pairwise fun left right => left.1 < right.1) :
    (insertEntry key value entries).Pairwise fun left right => left.1 < right.1 := by
  induction entries with
  | nil => exact List.pairwise_singleton _ _
  | cons head rest ih =>
    obtain ⟨other, old⟩ := head
    have above := (List.pairwise_cons.mp rising).1
    have restRising := (List.pairwise_cons.mp rising).2
    unfold insertEntry
    split
    · next below =>
      refine List.pairwise_cons.mpr ⟨fun entry member => ?_, rising⟩
      rcases List.mem_cons.mp member with same | later
      · exact same ▸ below
      · exact List.lt_trans below (above entry later)
    · next notBelow =>
      split
      · next same => exact List.pairwise_cons.mpr ⟨fun entry member => same ▸ above entry member,
          restRising⟩
      · next differs =>
        refine List.pairwise_cons.mpr ⟨fun entry member => ?_, ih restRising⟩
        have beyond : other < key := Decidable.byContradiction fun notBeyond =>
          differs (Std.Trichotomous.trichotomous (r := fun left right : Text => left < right)
            key other notBelow notBeyond)
        rcases mem_insertEntry member with same | later
        · exact same ▸ beyond
        · exact above entry later

/-- The table with a value under a key, in place of the one that was there. -/
def insert (table : Table α) (key : Text) (value : α) : Table α :=
  ⟨insertEntry key value table.entries, insertEntry_rising table.rising⟩

/-- The table with some entries inserted one after the other, so that the last one given for a key
stays. -/
def insertAll (table : Table α) (entries : List (Text × α)) : Table α :=
  entries.foldl (fun table (key, value) => table.insert key value) table

/-- The table of some entries, the last one given for a key. -/
def ofList (entries : List (Text × α)) : Table α := empty.insertAll entries

/-- Both tables in one; where both have a key, the value of the second stays. -/
def merge (first second : Table α) : Table α := first.insertAll second.entries

end Table

/-- A set of names. -/
abbrev NameSet := Table Unit

namespace NameSet

def ofList (names : List Text) : NameSet := Table.ofList (names.map fun name => (name, ()))

def contains (names : NameSet) (name : Text) : Bool := names.hasKey name

end NameSet

end BareComponent
