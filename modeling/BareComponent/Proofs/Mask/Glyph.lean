import BareComponent.Proofs.Mask.Scanner
import BareComponent.Proofs.Text.Encoding
import Mathlib.Tactic.SplitIfs

/-! # Characters under the mask

The mask shows a character whole or hides it whole, also where an escape or a delimiter takes two
bytes at once. A glyph is a character together with which of the two happens to it, and a text
with its mask is a sequence of glyphs. The mask of a text is therefore a text in UTF-8 itself.
-/

namespace BareComponent

/-- A character and whether a mask shows it. -/
structure Glyph where
  character : Char
  visible : Bool
deriving DecidableEq, Repr

namespace Glyph

def bytes (glyph : Glyph) : Text := String.utf8EncodeChar glyph.character

/-- The bytes that a mask has in the place of a glyph. -/
def shown (glyph : Glyph) : Text :=
  if glyph.visible then glyph.bytes else Text.blanked glyph.bytes

def text (glyphs : List Glyph) : Text := glyphs.flatMap bytes

def mask (glyphs : List Glyph) : Text := glyphs.flatMap shown

end Glyph

namespace Scanner

/-- A delimiter that ends in code has its second byte ahead, which is ASCII. -/
def Expects (state : State) (next : Option UInt8) : Prop :=
  state.claimed = true → state.mode = .code → ∃ b, next = some b ∧ b.toNat < 0x80

theorem expects_start (next : Option UInt8) : Expects start next := by simp [Expects, start]

@[simp] theorem braceStep_claimed (b : UInt8) (braces : List Nat) :
    (braceStep b braces).claimed = false := by
  rcases braces with _ | ⟨_ | count, outer⟩
  · rfl
  all_goals
    simp only [braceStep]
    split_ifs <;> rfl

/-- Every step leaves the second byte of a delimiter that ends in code ahead of it. -/
theorem expects_step (state : State) (b : UInt8) (next : Option UInt8) :
    Expects (step state b next) next := by
  rcases state with ⟨mode, _ | _, braces⟩
  · cases mode <;> simp only [step, codeStep, Bool.false_eq_true, if_false]
    case code => split_ifs <;> simp [Expects]
    case quoted => split_ifs <;> simp [Expects]
    case lineComment => split_ifs <;> simp [Expects]
    case blockComment =>
      split_ifs with closing
      · exact fun _ _ => ⟨_, closing.2, by decide⟩
      · simp [Expects]
    case template =>
      split_ifs with _ _ opening
      · simp [Expects]
      · simp [Expects]
      · exact fun _ _ => ⟨_, opening.2, by decide⟩
      · simp [Expects]
  · intro claimed
    simp [step] at claimed

section High

variable {b : UInt8} (high : 0x80 ≤ b.toNat)
include high

private theorem ne_of_high {ascii : UInt8} (low : ascii.toNat < 0x80) : b ≠ ascii := by
  rintro rfl
  omega

/-- A byte outside ASCII changes nothing but that it may have been escaped. -/
theorem step_high (state : State) (next : Option UInt8) :
    step state b next = { state with claimed := false } := by
  have other (ascii : UInt8) (low : ascii.toNat < 0x80) : b ≠ ascii := ne_of_high high low
  rcases state with ⟨mode, _ | _, braces⟩
  · cases mode with
    | code =>
      exact codeStep_plain braces next (other _ (by decide)) (other _ (by decide))
        (other _ (by decide))
        (other _ (by decide)) (other _ (by decide)) (other _ (by decide))
    | quoted quote =>
      have closing : b ≠ quote.byte := other _ (by cases quote <;> decide)
      simp [step, closing, other Byte.backslash (by decide),
        other Byte.newline (by decide)]
    | lineComment => simp [step, other Byte.newline (by decide)]
    | blockComment => simp [step, other Byte.asterisk (by decide)]
    | template =>
      simp [step, other Byte.backslash (by decide),
        other Byte.backtick (by decide), other Byte.dollar (by decide)]
  · simp [step]

/-- A byte outside ASCII is shown where it is code and not escaped. -/
theorem shows_high (state : State) (next : Option UInt8) :
    shows state b next = (!state.claimed && decide (state.mode = .code)) := by
  have other (ascii : UInt8) (low : ascii.toNat < 0x80) : b ≠ ascii := ne_of_high high low
  rcases state with ⟨mode, claimed, braces⟩
  cases mode with
  | code =>
    simp [shows, showsCode, other Byte.slash (by decide),
      other Byte.closeBrace (by decide)]
  | quoted quote =>
    have closing : b ≠ quote.byte := other _ (by cases quote <;> decide)
    simp [shows, closing]
  | lineComment | blockComment => simp [shows]
  | template => simp [shows, other Byte.backtick (by decide)]

end High

private theorem scan_high (state : State) {bytes : Text} (high : ∀ b ∈ bytes, 0x80 ≤ b.toNat)
    (free : state.claimed = false) (next : Option UInt8) :
    scan state next bytes = (if state.mode = .code then bytes else Text.blanked bytes) ∧
      after state next bytes = state := by
  induction bytes with
  | nil => simp [Text.blanked]
  | cons b rest ih =>
    obtain ⟨scanned, kept⟩ := ih fun other member => high other (List.mem_cons_of_mem _ member)
    have same : step state b (rest.head?.or next) = state := by
      rw [step_high (high b List.mem_cons_self), ← free]
    have visible := shows_high (high b List.mem_cons_self) state (rest.head?.or next)
    refine ⟨?_, by rw [after, same, kept]⟩
    rw [scan, same, scanned, shown, visible, free]
    split <;> simp_all [Text.blanked]

private theorem scan_character {state : State} (c : Char) (next : Option UInt8)
    (expects : Expects state (String.utf8EncodeChar c).head?) :
    ∃ visible, scan state next (String.utf8EncodeChar c) = Glyph.shown ⟨c, visible⟩ ∧
      Expects (after state next (String.utf8EncodeChar c)) next := by
  by_cases ascii : c.toNat < 0x80
  · refine ⟨shows state c.toNat.toUInt8 next, ?_, ?_⟩
    · simp only [Glyph.shown, Glyph.bytes, Text.encodeChar_of_ascii ascii, scan, shown,
        List.head?_nil,
        Option.none_or]
      split <;> simp_all [Text.blanked]
    · rw [Text.encodeChar_of_ascii ascii]
      exact expects_step state _ next
  · have high : ∀ b ∈ String.utf8EncodeChar c, 0x80 ≤ b.toNat := fun b member =>
      Nat.le_of_not_lt fun low => ascii
        ((Text.encodeChar_eq_singleton member low).2 ▸ low)
    obtain ⟨lead, tail, shape, -⟩ := Text.encodeChar_eq_cons c
    have leadHigh : 0x80 ≤ lead.toNat := high lead (shape ▸ List.mem_cons_self)
    obtain ⟨scanned, kept⟩ := scan_high { state with claimed := false }
      (fun b member => high b (shape ▸ List.mem_cons_of_mem _ member)) rfl next
    have visible := shows_high leadHigh state (tail.head?.or next)
    refine ⟨!state.claimed && decide (state.mode = .code), ?_, ?_⟩
    · rw [Glyph.shown, Glyph.bytes, shape, scan, step_high leadHigh, scanned, shown, visible]
      cases claimed : state.claimed with
      | false => by_cases inCode : state.mode = .code <;> simp [inCode, Text.blanked]
      | true =>
        have hidden : state.mode ≠ .code := fun inCode => by
          obtain ⟨b, follows, low⟩ := expects claimed inCode
          rw [shape, List.head?_cons, Option.some.injEq] at follows
          rw [← follows] at low
          omega
        simp [hidden, Text.blanked]
    · rw [shape, after, step_high leadHigh, kept]
      intro claimed
      simp at claimed

private theorem scan_encode (characters : List Char) {state : State} (next : Option UInt8)
    (expects : Expects state ((Text.encode characters).head?.or next)) :
    ∃ glyphs : List Glyph, glyphs.map Glyph.character = characters ∧
      scan state next (Text.encode characters) = Glyph.mask glyphs := by
  induction characters generalizing state with
  | nil => exact ⟨[], rfl, rfl⟩
  | cons c rest ih =>
    have first : (Text.encode (c :: rest)).head?.or next = (String.utf8EncodeChar c).head? := by
      obtain ⟨lead, tail, shape, -⟩ := Text.encodeChar_eq_cons c
      simp [shape]
    obtain ⟨visible, scanned, expectsRest⟩ :=
      scan_character c ((Text.encode rest).head?.or next) (first ▸ expects)
    obtain ⟨glyphs, spelled, masked⟩ := ih expectsRest
    refine ⟨⟨c, visible⟩ :: glyphs, by rw [List.map_cons, spelled], ?_⟩
    rw [Text.encode_cons, scan_append, scanned, masked]
    rfl

end Scanner

/-- A text in UTF-8 and its mask are spelled by the same glyphs. -/
theorem Text.exists_glyphs (characters : List Char) :
    ∃ glyphs : List Glyph, Text.encode characters = Glyph.text glyphs ∧
      (Text.encode characters).mask = Glyph.mask glyphs := by
  obtain ⟨glyphs, spelled, masked⟩ :=
    Scanner.scan_encode characters none (Scanner.expects_start _)
  refine ⟨glyphs, ?_, by rw [Text.mask_eq_scan, masked]⟩
  rw [← spelled, Text.encode, List.flatMap_map]
  rfl

namespace Glyph

/-- The characters that a mask has in the place of a glyph. -/
def shownCharacters (glyph : Glyph) : List Char :=
  if glyph.visible then [glyph.character]
  else if glyph.character = '\n' then ['\n']
  else List.replicate glyph.bytes.length ' '

/-- What a glyph shows is the encoding of the characters that it shows. -/
theorem encode_shownCharacters (glyph : Glyph) :
    Text.encode glyph.shownCharacters = glyph.shown := by
  rcases glyph with ⟨c, _ | _⟩
  · by_cases lineEnd : c = '\n'
    · subst lineEnd
      decide
    · have noLineEnd : ∀ b ∈ String.utf8EncodeChar c, Byte.blanked b = Byte.space := by
        intro b member
        have other : b ≠ Byte.newline := fun same => lineEnd <| by
          subst same
          exact Char.ext (UInt32.toNat_inj.mp (Text.encodeChar_eq_singleton member (by decide)).2)
        simp [Byte.blanked, other]
      simp only [shownCharacters, shown, bytes, lineEnd, Bool.false_eq_true, if_false,
        Text.encode_spaces]
      exact (List.eq_replicate_iff.mpr
        ⟨List.length_map _, by simpa [Text.blanked] using noLineEnd⟩).symm
  · simp [shownCharacters, shown, bytes]

/-- A mask is a text in UTF-8. -/
theorem mask_eq_encode (glyphs : List Glyph) :
    mask glyphs = Text.encode (glyphs.flatMap shownCharacters) := by
  induction glyphs with
  | nil => rfl
  | cons glyph rest ih =>
    rw [List.flatMap_cons, Text.encode_append, encode_shownCharacters, ← ih]
    rfl

@[simp] theorem text_append (first second : List Glyph) :
    text (first ++ second) = text first ++ text second := List.flatMap_append

@[simp] theorem mask_append (first second : List Glyph) :
    mask (first ++ second) = mask first ++ mask second := List.flatMap_append

@[simp] theorem length_shown (glyph : Glyph) : glyph.shown.length = glyph.bytes.length := by
  unfold shown
  split <;> simp [Text.blanked]

@[simp] theorem length_mask (glyphs : List Glyph) :
    (mask glyphs).length = (text glyphs).length := by
  simp [mask, text, List.length_flatMap]

/-- The text of some glyphs is the encoding of their characters. -/
theorem text_eq_encode (glyphs : List Glyph) :
    text glyphs = Text.encode (glyphs.map character) := by
  rw [Text.encode, List.flatMap_map]
  rfl

/-- What a mask shows without blanks is a character of its own. -/
theorem mask_eq_append_cons {glyphs : List Glyph} {before after : Text} {b : UInt8}
    (split : mask glyphs = before ++ b :: after) (ascii : b.toNat < 0x80)
    (dark : b ≠ Byte.space ∧ b ≠ Byte.newline) :
    ∃ first glyph second, glyphs = first ++ glyph :: second ∧ mask first = before ∧
      glyph.visible = true ∧ glyph.bytes = [b] ∧ mask second = after := by
  induction glyphs generalizing before with
  | nil => simp [mask] at split
  | cons glyph rest ih =>
    have here : glyph.shown ++ mask rest = before ++ b :: after := split
    rcases List.append_eq_append_iff.mp here with ⟨more, rfl, behind⟩ | ⟨more, shows, behind⟩
    · obtain ⟨first, found, second, rfl, rfl, visible, bytes, rfl⟩ := ih behind
      exact ⟨glyph :: first, found, second, rfl, rfl, visible, bytes, rfl⟩
    · cases more with
      | nil =>
        obtain ⟨first, found, second, rfl, masked, visible, bytes, rfl⟩ := @ih [] behind.symm
        refine ⟨glyph :: first, found, second, rfl, ?_, visible, bytes, rfl⟩
        show glyph.shown ++ mask first = before
        rw [masked, shows]
        simp
      | cons c more =>
        obtain ⟨rfl, rfl⟩ := List.cons.inj behind
        have member : b ∈ glyph.shown := shows ▸ by simp
        cases visible : glyph.visible with
        | false =>
          rw [shown, visible, if_neg Bool.false_ne_true, Text.blanked, List.mem_map] at member
          obtain ⟨c, -, rfl⟩ := member
          unfold Byte.blanked at dark
          grind
        | true =>
          rw [shown, visible, if_pos rfl] at member shows
          have alone : glyph.bytes = [b] := (Text.encodeChar_eq_singleton member ascii).1
          rw [alone] at shows
          obtain ⟨rfl, -, rfl⟩ : before = [] ∧ b = b ∧ more = [] := by
            cases before with
            | nil => simpa using shows.symm
            | cons d before => simp at shows
          exact ⟨[], glyph, rest, rfl, rfl, visible, alone, rfl⟩

/-- A character of a mask that is no blank stands for itself. -/
theorem shownCharacters_eq_append_cons {glyphs : List Glyph} {before behind : List Char} {c : Char}
    (split : glyphs.flatMap shownCharacters = before ++ c :: behind)
    (dark : c ≠ ' ' ∧ c ≠ '\n') :
    ∃ first second, glyphs = first ++ ⟨c, true⟩ :: second ∧
      first.flatMap shownCharacters = before := by
  induction glyphs generalizing before with
  | nil => simp at split
  | cons glyph rest ih =>
    rw [List.flatMap_cons] at split
    rcases List.append_eq_append_iff.mp split with ⟨more, rfl, tail⟩ | ⟨more, shows, tail⟩
    · obtain ⟨first, second, rfl, rfl⟩ := ih tail
      exact ⟨glyph :: first, second, rfl, rfl⟩
    · cases more with
      | nil =>
        obtain ⟨first, second, rfl, nothing⟩ := @ih [] tail.symm
        exact ⟨glyph :: first, second, rfl, by simp [nothing, shows]⟩
      | cons d more =>
        obtain ⟨rfl, -⟩ := List.cons.inj tail
        have member : c ∈ glyph.shownCharacters := shows ▸ by simp
        obtain ⟨e, visible⟩ := glyph
        cases visible with
        | false =>
          unfold shownCharacters at member
          grind
        | true =>
          have alone : [e] = before ++ c :: more := shows
          cases before with
          | nil =>
            obtain ⟨rfl, -⟩ := List.cons.inj alone
            exact ⟨[], rest, rfl, rfl⟩
          | cons d before => simp at alone

end Glyph

end BareComponent
