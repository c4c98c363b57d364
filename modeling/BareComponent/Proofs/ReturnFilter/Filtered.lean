import BareComponent.Proofs.Mask.Glyph
import BareComponent.Proofs.ReturnFilter.Literal

/-! # Filtering as a relation

A script and its mask are cut together, so filtering relates a text with its mask to what is kept of
the two. The relation says which literals are looked at, which of their entries survive and how the
survivors are put together again, and the filter computes what it relates a script to.
-/

namespace BareComponent

/-- A text and what a mask has in its place. -/
structure Marked where
  text : Text
  mask : Text
deriving DecidableEq, Repr, Inhabited

namespace Marked

def ofScript (script : Text) : Marked := ⟨script, script.mask⟩

def slice (marked : Marked) (span : Span) : Marked :=
  ⟨marked.text.slice span, marked.mask.slice span⟩

/-- Both with the spans of a rising list replaced. -/
def replace (marked : Marked) (edits : List (Span × Marked)) : Marked where
  text := marked.text.replace (edits.map fun (span, replacement) => (span, replacement.text))
  mask := marked.mask.replace (edits.map fun (span, replacement) => (span, replacement.mask))

def append (first second : Marked) : Marked :=
  ⟨first.text ++ second.text, first.mask ++ second.mask⟩

/-- Pieces put together with a comma between neighbours. -/
def join (pieces : List Marked) : Marked where
  text := Text.join [Byte.comma] (pieces.map text)
  mask := Text.join [Byte.comma] (pieces.map mask)

def trim (marked : Marked) : Marked :=
  let start := marked.text.length - marked.text.trimStart.length
  marked.slice ⟨start, start + marked.text.trim.length⟩

def leading (marked : Marked) : Marked :=
  marked.slice ⟨0, marked.text.length - marked.text.trimStart.length⟩

def trailing (marked : Marked) : Marked :=
  marked.slice ⟨marked.text.trimEnd.length, marked.text.length⟩

/-- The entries of an object, given by its inside. -/
def entries (content : Marked) : List Span := content.mask.topLevelPieces Byte.comma

/-- The key of an entry of an object. -/
def keyAt (content : Marked) (entry : Span) : Text :=
  ReturnFilter.keyOf (content.mask.slice entry)

/-- The entries whose keys are in no set of names. -/
def survivors (names : NameSet) (content : Marked) : List Span :=
  content.entries.filter fun entry => !names.contains (content.keyAt entry)

/-- The inside of an object whose surviving entries are rewritten. -/
def keep (names : NameSet) (content : Marked) (rewritten : Span → Marked) : Marked :=
  let joined := join ((content.survivors names).map rewritten)
  if content.survivors names = content.entries then joined
  else (content.leading.append joined.trim).append content.trailing

end Marked

namespace NameSet

/-- Whether the names are identifiers: not empty, and of ASCII only what identifiers have. -/
def Identifiers (names : NameSet) : Prop :=
  ∀ name, names.contains name = true →
    name ≠ [] ∧ ∀ b ∈ name, Byte.continuesIdentifier b = true ∨ 0x80 ≤ b

theorem identifiers_iff {names : NameSet} : names.Identifiers ↔ ∀ entry ∈ names.entries,
    entry.1 ≠ [] ∧ ∀ b ∈ entry.1, Byte.continuesIdentifier b = true ∨ 0x80 ≤ b := by
  simp only [Identifiers, contains, Table.hasKey, Table.get?, List.lookup_isSome_iff, beq_iff_eq]
  constructor
  · intro identifiers entry member
    exact identifiers entry.1 ⟨entry, member, rfl⟩
  · rintro identifiers _ ⟨entry, member, rfl⟩
    exact identifiers entry member

instance (names : NameSet) : Decidable names.Identifiers :=
  decidable_of_iff (names.entries.all (fun entry => !entry.1.isEmpty &&
    entry.1.all fun b => Byte.continuesIdentifier b || decide (0x80 ≤ b)) = true)
    (by simp [identifiers_iff])

end NameSet

namespace ReturnFilter

open Text

/-- What filtering keeps of a text and its mask. Everything outside the outermost closed return
literals stays, and inside each of them the surviving entries are filtered in turn. -/
inductive Filtered (names : NameSet) : Marked → Marked → Prop
  | intro {marked : Marked} (objects : List Span)
      (rising : objects.Pairwise fun first second => first.start < second.start)
      (outermost : ∀ object, object ∈ objects ↔ Outermost marked.mask object)
      (rewritten : Span → Span → Marked)
      (entries : ∀ object ∈ objects, ∀ entry ∈ (marked.slice object).survivors names,
        Filtered names ((marked.slice object).slice entry) (rewritten object entry)) :
      Filtered names marked (marked.replace
        (objects.map fun object => (object, (marked.slice object).keep names (rewritten object))))

/-- The keys of the entries of a mask that filtering comes to: those of the outermost closed return
literals, and those of the literals inside surviving entries. -/
inductive Reachable (names : NameSet) : (masked key : Text) → Prop
  | entry {masked : Text} {object entry : Span} (outermost : Outermost masked object)
      (member : entry ∈ (masked.slice object).topLevelPieces Byte.comma) :
      Reachable names masked (keyOf ((masked.slice object).slice entry))
  | inside {masked key : Text} {object entry : Span} (outermost : Outermost masked object)
      (member : entry ∈ (masked.slice object).topLevelPieces Byte.comma)
      (survives : names.contains (keyOf ((masked.slice object).slice entry)) = false)
      (deeper : Reachable names ((masked.slice object).slice entry) key) :
      Reachable names masked key

/-- Whether no key that filtering comes to is in the set of names. -/
def Settled (names : NameSet) (masked : Text) : Prop :=
  ∀ key, Reachable names masked key → names.contains key = false

/-- The entries of an object, given by its inside. -/
def entriesOf (masked : Text) : List Text :=
  (masked.topLevelPieces Byte.comma).map masked.slice

/-- Whether filtering an object comes to no key in the set of names. -/
def SettledInside (names : NameSet) (masked : Text) : Prop :=
  ∀ piece ∈ entriesOf masked, names.contains (keyOf piece) = false ∧ Settled names piece

/-- A mask is settled if its literals are. -/
theorem settled_iff {names : NameSet} {characters : List Char} {literals : List Literal}
    (laid : Laid [] characters literals) : Settled names (encode characters) ↔
      ∀ literal ∈ literals, SettledInside names (encode literal.content) := by
  have outermost {object : Span} : Outermost (encode characters) object ↔
      ∃ literal ∈ literals, literal.span = object := by
    rw [← mem_objects_iff, laid.objects, List.mem_map]
  constructor
  · intro settled literal member piece cut
    obtain ⟨entry, inside, rfl⟩ := List.mem_map.mp cut
    have object := outermost.mpr ⟨literal, member, rfl⟩
    rw [← laid.slice member] at inside ⊢
    have unnamed := settled _ (.entry object inside)
    exact ⟨unnamed, fun key deeper => settled key (.inside object inside unnamed deeper)⟩
  · intro settled key reachable
    cases reachable with
    | entry object inside =>
      obtain ⟨literal, member, rfl⟩ := outermost.mp object
      rw [laid.slice member] at inside ⊢
      exact (settled literal member _ (List.mem_map_of_mem inside)).1
    | inside object inside unnamed deeper =>
      obtain ⟨literal, member, rfl⟩ := outermost.mp object
      rw [laid.slice member] at inside deeper
      exact (settled literal member _ (List.mem_map_of_mem inside)).2 key deeper

end ReturnFilter

end BareComponent
