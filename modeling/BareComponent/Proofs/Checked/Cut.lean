import BareComponent.Proofs.Mask.Layout
import BareComponent.Proofs.Pattern.Ensures
import BareComponent.Proofs.Text.Nesting
import Mathlib.Data.List.ReduceOption

/-! # Steps that can fail

Texts are cut at offsets that were computed, often on a mask of the text. The steps here do what the
plain ones do and check what these take for granted: that a stretch takes whole characters out of a
text, that a byte that is read is there, and that a number is not taken below zero. They agree with
the plain steps as long as all offsets are boundaries, and beside the code that a mask shows there
are boundaries of the text as well.
-/

namespace BareComponent

/-- Why a checked step fails. -/
inductive Fault where
  /-- A stretch is reversed, runs over the end of a text or cuts a character. -/
  | tornCharacter
  /-- A byte is read where a text has none. -/
  | missingByte
  /-- More is taken from a number than there is. -/
  | belowZero
  /-- Objects are nested deeper than a text is long. -/
  | endless
deriving DecidableEq, Repr

/-- The outcome of checked steps. -/
abbrev Checked (α : Type) := Except Fault α

namespace Checked

variable {α β : Type}

/-- The difference of two numbers. -/
def minus (number count : Nat) : Checked Nat :=
  if count ≤ number then .ok (number - count) else .error .belowZero

def cut (text : Text) (span : Span) : Checked Text :=
  if text.IsWhole span then .ok (text.slice span) else .error .tornCharacter

/-- The byte in front of an offset, unless the text begins there. -/
def byteBefore (text : Text) : (offset : Nat) → Checked (Option UInt8)
  | 0 => .ok none
  | offset + 1 =>
    match text[offset]? with
    | some b => .ok (some b)
    | none => .error .missingByte

/-- The mask of a text. Where a comment may begin, the text behind its delimiter is cut off. -/
def mask (text : Text) : Checked Text :=
  if ∀ offset < text.length, text[offset]? = some Byte.slash →
      text[offset + 1]? = some Byte.asterisk → text.IsWhole ⟨offset + 2, text.length⟩ then
    .ok text.mask
  else .error .tornCharacter

/-- The position at which a closing bracket brings the depth to zero, in what is left of a text
behind `position` bytes. -/
def closingFrom (depth position : Nat) : Text → Checked (Option Nat)
  | [] => .ok none
  | b :: rest =>
    if Byte.isOpen b then closingFrom (depth + 1) (position + 1) rest
    else if Byte.isClose b then do
      let depth ← minus depth 1
      if depth = 0 then return some position else closingFrom depth (position + 1) rest
    else closingFrom depth (position + 1) rest

/-- The position of the bracket that closes the opening bracket at a position. -/
def closingOf (text : Text) (position : Nat) : Checked (Option Nat) :=
  if text[position]?.any Byte.isOpen then closingFrom 0 position (text.drop position)
  else .ok none

/-- The text with each span of a rising list replaced; `start` is where copying begins. -/
def replaceFrom (text : Text) (start : Nat) : List (Span × Text) → Checked Text
  | [] => cut text ⟨start, text.length⟩
  | (span, replacement) :: edits => do
    let copied ← cut text ⟨start, span.start⟩
    let rest ← replaceFrom text span.stop edits
    return copied ++ replacement ++ rest

/-- The values that a step has for the items of a list, from first to last. -/
def collect (step : α → Checked (Option β)) (items : List α) : Checked (List β) := do
  let values ← items.mapM step
  return values.reduceOption

@[simp] theorem ok_bind (value : α) (next : α → Checked β) :
    (Except.ok value : Checked α) >>= next = next value := rfl

@[simp] theorem pure_eq_ok (value : α) : (pure value : Checked α) = .ok value := rfl

/-- Steps that each succeed succeed over a list. -/
theorem mapM_eq_ok {step : α → Checked β} {plain : α → β} {items : List α}
    (each : ∀ item ∈ items, step item = .ok (plain item)) :
    items.mapM step = .ok (items.map plain) := by
  induction items with
  | nil => rfl
  | cons item items ih =>
    obtain ⟨first, others⟩ := List.forall_mem_cons.mp each
    rw [List.mapM_cons, first, ih others]
    rfl

/-- Collecting succeeds if each step does, and keeps what the steps answer. -/
theorem collect_eq_ok {step : α → Checked (Option β)} {plain : α → Option β} {items : List α}
    (each : ∀ item ∈ items, step item = .ok (plain item)) :
    collect step items = .ok (items.filterMap plain) := by
  rw [collect, mapM_eq_ok each, ok_bind, pure_eq_ok, List.reduceOption, List.filterMap_map]
  rfl

open Text

section Cuts

variable {text : Text} {span : Span} {start offset : Nat} {edits : List (Span × Text)}

/-- A subtraction that stays in the natural numbers succeeds. -/
theorem minus_eq_ok {number count : Nat} (enough : count ≤ number) :
    minus number count = .ok (number - count) := if_pos enough

/-- A slice along whole characters succeeds. -/
theorem cut_eq_ok (whole : text.IsWhole span) : cut text span = .ok (text.slice span) :=
  if_pos whole

/-- The byte in front of a place inside the text can be asked for. -/
theorem byteBefore_eq_ok (inside : offset ≤ text.length) :
    byteBefore text offset = .ok (text.take offset).getLast? := by
  cases offset with
  | zero => rfl
  | succ offset =>
    have here : text[offset]? = some text[offset] := List.getElem?_eq_getElem inside
    rw [byteBefore, here, List.getLast?_eq_getElem?, List.length_take, List.getElem?_take]
    simp [Nat.min_eq_left inside]

/-- Behind the delimiter of a comment a string can be cut. -/
theorem mask_eq_ok (string : IsString text) : mask text = .ok text.mask := by
  refine if_pos fun offset _ _ asterisk => ?_
  have behind := (isBoundary_of_ascii string asterisk (by decide)).2
  exact behind.isWhole (isBoundary_length text) behind.le_length

private theorem map_add_one (found : Option Nat) (position : Nat) :
    (found.map (· + 1)).map (position + ·) = found.map (position + 1 + ·) := by
  rw [Option.map_map]
  exact congrArg (Option.map · found) (funext fun _ => by simp [Nat.add_comm, Nat.add_left_comm])

private theorem closingFrom_eq_ok (depth position : Nat) (text : Text) :
    closingFrom (depth + 1) position text =
      .ok ((closingOffset? (depth + 1) text).map (position + ·)) := by
  induction text generalizing depth position with
  | nil => rfl
  | cons b rest ih =>
    rw [closingFrom, closingOffset?, depthStep]
    by_cases opens : Byte.isOpen b = true
    · have stays : ¬Byte.isClose b = true := fun closes => by
        simp [isOpen_of_isClose closes] at opens
      rw [if_pos opens, if_pos opens, ih, if_neg fun found => stays found.1, map_add_one]
    · rw [if_neg opens, if_neg opens]
      by_cases closes : Byte.isClose b = true
      · rw [if_pos closes, if_pos closes, minus_eq_ok (Nat.le_add_left 1 depth), ok_bind,
          Nat.add_sub_cancel]
        cases depth with
        | zero => simp [closes]
        | succ depth => rw [if_neg (Nat.succ_ne_zero depth), ih, if_neg fun found =>
            Nat.succ_ne_zero depth found.2, map_add_one]
      · rw [if_neg closes, if_neg closes, ih, if_neg fun found => closes found.1, map_add_one]

/-- The depth is never taken below zero, for the search ends where it comes to zero. -/
theorem closingOf_eq_ok (text : Text) (position : Nat) :
    closingOf text position = .ok (text.closingOf? position) := by
  rw [closingOf, Text.closingOf?, ← List.head?_drop]
  cases text.drop position with
  | nil => rfl
  | cons b rest =>
    by_cases opens : Byte.isOpen b = true
    · simp only [List.head?_cons, Option.any_some, opens, if_true, closingFrom]
      exact closingFrom_eq_ok 0 (position + 1) rest
    · simp [opens]

/-- Copying never cuts a character when the spans rise between boundaries. -/
theorem replaceFrom_eq_ok (boundary : text.IsBoundary start)
    (whole : ∀ edit ∈ edits, start ≤ edit.1.start ∧ text.IsWhole edit.1)
    (rising : edits.Pairwise (·.1.stop ≤ ·.1.start)) :
    replaceFrom text start edits = .ok (text.replaceFrom start edits) := by
  induction edits generalizing start with
  | nil =>
    have rest := boundary.isWhole (isBoundary_length text) boundary.le_length
    rw [replaceFrom, cut_eq_ok rest, Text.replaceFrom, slice, List.take_length]
  | cons edit edits ih =>
    obtain ⟨span, replacement⟩ := edit
    obtain ⟨⟨behind, first⟩, others⟩ := List.forall_mem_cons.mp whole
    obtain ⟨above, rising⟩ := List.pairwise_cons.mp rising
    have rest := ih first.stops (fun edit member => ⟨above edit member, (others edit member).2⟩)
      rising
    rw [replaceFrom, cut_eq_ok (boundary.isWhole first.starts behind), rest]
    rfl

/-- What replaces spans of a string with strings is a string. -/
theorem isString_replaceFrom (string : IsString text) (boundary : text.IsBoundary start)
    (whole : ∀ edit ∈ edits, start ≤ edit.1.start ∧ text.IsWhole edit.1 ∧ IsString edit.2)
    (rising : edits.Pairwise (·.1.stop ≤ ·.1.start)) :
    IsString (text.replaceFrom start edits) := by
  induction edits generalizing start with
  | nil =>
    have rest := boundary.isWhole (isBoundary_length text) boundary.le_length
    have behind := rest.isString string
    rwa [slice, List.take_length] at behind
  | cons edit edits ih =>
    obtain ⟨span, replacement⟩ := edit
    obtain ⟨⟨behind, first, replaced⟩, others⟩ := List.forall_mem_cons.mp whole
    obtain ⟨above, rising⟩ := List.pairwise_cons.mp rising
    have copied := (boundary.isWhole first.starts behind).isString string
    exact (copied.append replaced).append
      (ih first.stops (fun edit member => ⟨above edit member, (others edit member).2⟩) rising)

end Cuts

end Checked

end BareComponent
