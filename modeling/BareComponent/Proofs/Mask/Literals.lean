import BareComponent.Proofs.Mask.Scanner
import BareComponent.Proofs.Text.Encoding
import Mathlib.Tactic.SplitIfs

/-! # Where literals begin and end

A literal is a string, a template or a comment. It begins where the scanner leaves code, and it ends
where the scanner is back in that code, with the same interpolations around it. A string in quotes
and a line comment end in front of a line end, which is code again; within a line a literal ends
with a delimiter. A template is one literal together with its interpolations. Only in these does
code stand inside a literal, and of a comment the mask shows nothing at all.
-/

namespace BareComponent

open Text

namespace Scanner

/-- How the scanner stands in front of a place of a text. -/
def stateAt (text : Text) (place : Nat) : State := after start text[place]? (text.take place)

section Places

variable {text : Text} {place : Nat} {b : UInt8}

/-- The scanner goes from one place to the next by its step. -/
theorem stateAt_succ (reads : text[place]? = some b) :
    stateAt text (place + 1) = step (stateAt text place) b text[place + 1]? := by
  rw [stateAt, List.take_add_one, reads, Option.toList_some, after_append, List.head?_cons,
    Option.some_or, stateAt, reads]
  rfl

/-- Behind the end of a text the state stays as it is. -/
theorem stateAt_succ_of_none (ends : text[place]? = none) :
    stateAt text (place + 1) = stateAt text place := by
  have short := List.getElem?_eq_none_iff.mp ends
  rw [stateAt, stateAt, ends, List.getElem?_eq_none (by omega), List.take_of_length_le short,
    List.take_of_length_le (by omega)]

/-- What a mask shows at a place, from the state there. -/
theorem getElem?_mask (reads : text[place]? = some b) :
    text.mask[place]? = some (shown (stateAt text place) b text[place + 1]?) := by
  obtain ⟨front, rest, rfl, rfl⟩ := exists_append_of_getElem? reads
  have next : (front ++ b :: rest)[front.length + 1]? = rest.head?.or none := by
    rw [List.getElem?_append_right (by omega), Nat.add_sub_cancel_left, List.getElem?_cons_succ,
      Option.or_none, List.head?_eq_getElem?]
  rw [mask_eq_scan, scan_append, List.getElem?_append_right (by rw [scan_length]), scan_length,
    Nat.sub_self, scan, List.getElem?_cons_zero, stateAt, reads, List.take_left, next,
    List.head?_cons, Option.some_or]

/-- What the mask shows is code, unless it is one of the delimiters of literals. -/
theorem code_of_mask (reads : text.mask[place]? = some b)
    (dark : b ≠ Byte.space ∧ b ≠ Byte.newline) (single : b ≠ Byte.singleQuote)
    (double : b ≠ Byte.doubleQuote) (tick : b ≠ Byte.backtick) :
    text[place]? = some b ∧ (stateAt text place).mode = .code ∧
      (stateAt text place).claimed = false := by
  cases spelled : text[place]? with
  | none =>
    have short : text.mask.length ≤ place := by
      rw [mask_eq_scan, scan_length]
      exact List.getElem?_eq_none_iff.mp spelled
    rw [List.getElem?_eq_none short] at reads
    contradiction
  | some c =>
    rw [getElem?_mask spelled, Option.some.injEq, shown] at reads
    split at reads
    · next visible =>
      subst reads
      rw [shows, Bool.and_eq_true, Bool.not_eq_true'] at visible
      obtain ⟨free, visible⟩ := visible
      refine ⟨rfl, ?_, free⟩
      cases mode : (stateAt text place).mode with
      | code => rfl
      | quoted quote => cases quote <;> simp_all [Quote.byte]
      | lineComment | blockComment => simp [mode] at visible
      | template => simp [mode, tick] at visible
    · unfold Byte.blanked at reads
      split at reads
      · exact absurd reads.symm dark.2
      · exact absurd reads.symm dark.1

end Places

/-- Whether a literal begins at a place. -/
def Begins (text : Text) (place : Nat) : Prop :=
  (stateAt text place).mode = .code ∧ (stateAt text place).claimed = false ∧
    (stateAt text (place + 1)).mode ≠ .code ∧
    (stateAt text (place + 1)).braces = (stateAt text place).braces

private theorem mode_braceStep (b : UInt8) (braces : List Nat) :
    (braceStep b braces).mode = .code ∨ (braceStep b braces).mode = .template := by
  rcases braces with _ | ⟨_ | count, outer⟩ <;> simp only [braceStep]
  · simp
  · split_ifs <;> simp
  · split_ifs <;> simp

private theorem mode_braceStep_slash (braces : List Nat) :
    (braceStep Byte.slash braces).mode = .code := by
  rcases braces with _ | ⟨_ | count, outer⟩ <;> rfl

private theorem braces_ne_of_template {b : UInt8} {braces : List Nat}
    (template : (braceStep b braces).mode = .template) : (braceStep b braces).braces ≠ braces := by
  rcases braces with _ | ⟨_ | count, outer⟩ <;> simp only [braceStep] at template ⊢
  · contradiction
  · split_ifs at template ⊢
    exact (List.cons_ne_self 0 outer).symm
  · split_ifs at template

/-- A template begins with a backtick. -/
theorem Begins.backtick {text : Text} {place : Nat} (begins : Begins text place)
    (template : (stateAt text (place + 1)).mode = .template) :
    text[place]? = some Byte.backtick := by
  obtain ⟨code, free, leaves, same⟩ := begins
  cases reads : text[place]? with
  | none =>
    rw [stateAt_succ_of_none reads] at leaves
    contradiction
  | some b =>
    rw [stateAt_succ reads] at template same
    generalize stateAt text place = state at code free template same
    obtain ⟨mode, claimed, braces⟩ := state
    obtain rfl : mode = .code := code
    obtain rfl : claimed = false := free
    simp only [step, Bool.false_eq_true, if_false, codeStep] at template same
    split_ifs at template same with single double tick
    · rw [tick]
    · exact absurd same (braces_ne_of_template template)

/-- The bytes that a literal begins with and that end it within a line. -/
def delimiters : List UInt8 := [Byte.singleQuote, Byte.doubleQuote, Byte.backtick, Byte.slash]

/-- A literal begins with a quote, a backtick or a slash. -/
theorem Begins.exists_delimiter {text : Text} {place : Nat} (begins : Begins text place) :
    ∃ b ∈ delimiters, text[place]? = some b := by
  obtain ⟨code, free, leaves, same⟩ := begins
  cases reads : text[place]? with
  | none =>
    rw [stateAt_succ_of_none reads] at leaves
    contradiction
  | some b =>
    refine ⟨b, ?_, rfl⟩
    by_contra plain
    simp only [delimiters, List.mem_cons, List.not_mem_nil, or_false, not_or] at plain
    obtain ⟨single, double, tick, slash⟩ := plain
    rw [stateAt_succ reads] at leaves same
    generalize stateAt text place = state at code free leaves same
    obtain ⟨mode, claimed, braces⟩ := state
    obtain rfl : mode = .code := code
    obtain rfl : claimed = false := free
    have stepped : step ⟨.code, false, braces⟩ b text[place + 1]? = braceStep b braces := by
      simp [step, codeStep, single, double, tick, slash]
    rw [stepped] at leaves same
    rcases mode_braceStep b braces with stays | template
    · exact leaves stays
    · exact braces_ne_of_template template same

/-- No literal begins with a comma. -/
theorem Begins.mask_ne_comma {text : Text} {place : Nat} (begins : Begins text place) :
    text.mask[place]? ≠ some Byte.comma := by
  intro reads
  obtain ⟨spelled, -⟩ := code_of_mask reads (by decide) (by decide) (by decide) (by decide)
  obtain ⟨delimiter, member, same⟩ := begins.exists_delimiter
  obtain rfl : delimiter = Byte.comma := Option.some.inj (same.symm.trans spelled)
  exact absurd member (by decide)

/-- A literal that begins with a slash is a comment. -/
theorem Begins.comment {text : Text} {place : Nat} (begins : Begins text place)
    (slash : text[place]? = some Byte.slash) :
    text[place + 1]? = some Byte.slash ∧ (stateAt text (place + 1)).mode = .lineComment ∨
      text[place + 1]? = some Byte.asterisk ∧ (stateAt text (place + 1)).mode = .blockComment := by
  obtain ⟨code, free, leaves, -⟩ := begins
  rw [stateAt_succ slash] at leaves ⊢
  generalize stateAt text place = state at code free leaves
  obtain ⟨mode, claimed, braces⟩ := state
  obtain rfl : mode = .code := code
  obtain rfl : claimed = false := free
  simp only [step, Bool.false_eq_true, if_false, codeStep] at leaves ⊢
  split_ifs at leaves ⊢ with single double tick line block
  · exact absurd single (by decide)
  · exact absurd double (by decide)
  · exact absurd tick (by decide)
  · exact .inl ⟨line.2, rfl⟩
  · exact .inr ⟨block.2, rfl⟩
  · exact absurd (mode_braceStep_slash braces) leaves

/-- The mask shows the quote or the backtick that a literal begins with. -/
theorem Begins.mask_eq {text : Text} {place : Nat} {b : UInt8} (begins : Begins text place)
    (reads : text[place]? = some b) (quote : b ≠ Byte.slash) : text.mask[place]? = some b := by
  obtain ⟨delimiter, member, same⟩ := begins.exists_delimiter
  obtain rfl : b = delimiter := Option.some.inj (reads.symm.trans same)
  obtain ⟨code, free, -, -⟩ := begins
  have noBrace : b ≠ Byte.closeBrace := by
    rintro rfl
    exact absurd member (by decide)
  have visible : shows (stateAt text place) b text[place + 1]? = true := by
    simp [shows, code, free, showsCode, quote, noBrace]
  rw [getElem?_mask reads, shown, if_pos visible]

/-- Whether a literal ends in front of a line end. -/
def Mode.endsWithLine : Mode → Bool
  | .quoted _ | .lineComment => true
  | .code | .blockComment | .template => false

/-- Whether the literal that begins at `start` is over at a place behind it. -/
def IsOver (text : Text) (start place : Nat) : Prop :=
  (stateAt text place).claimed = false ∧
    (stateAt text place).braces = (stateAt text start).braces ∧
    ((stateAt text place).mode = .code ∨
      text[place]? = some Byte.newline ∧ (stateAt text place).mode.endsWithLine = true)

/-- Whether a literal of a text is spelled inside a span: it ends where it is over for the first
time, or with the text. -/
structure IsLiteral (text : Text) (literal : Span) : Prop where
  begins : Begins text literal.start
  nonempty : literal.start < literal.stop
  runs : ∀ place < literal.stop, literal.start < place → ¬IsOver text literal.start place
  ends : literal.stop = text.length ∨ IsOver text literal.start literal.stop

/-- Whether a place inside a literal stands in the code of one of its interpolations. -/
def Interpolates (text : Text) (literal : Span) (place : Nat) : Prop :=
  literal.start < place ∧ place < literal.stop ∧ (stateAt text place).mode = .code ∧
    (stateAt text literal.start).braces.length < (stateAt text place).braces.length

section Decidable

variable (text : Text) (literal : Span) (start place : Nat)

instance : Decidable (Begins text place) := inferInstanceAs (Decidable (_ ∧ _ ∧ _ ∧ _))

instance : Decidable (IsOver text start place) := inferInstanceAs (Decidable (_ ∧ _ ∧ _))

instance : Decidable (IsLiteral text literal) :=
  decidable_of_iff (Begins text literal.start ∧ literal.start < literal.stop ∧
      (∀ place < literal.stop, literal.start < place → ¬IsOver text literal.start place) ∧
      (literal.stop = text.length ∨ IsOver text literal.start literal.stop))
    ⟨fun ⟨begins, nonempty, runs, ends⟩ => ⟨begins, nonempty, runs, ends⟩,
      fun ⟨begins, nonempty, runs, ends⟩ => ⟨begins, nonempty, runs, ends⟩⟩

instance : Decidable (Interpolates text literal place) :=
  inferInstanceAs (Decidable (_ ∧ _ ∧ _ ∧ _))

end Decidable

/-- The states between the delimiters of a literal, which begins in a mode behind code with some
interpolations around it. -/
inductive Within (mode : Mode) (braces : List Nat) : State → Prop
  | text (claimed : Bool) : Within mode braces ⟨mode, claimed, braces⟩
  /-- The first byte of the delimiter that ends a comment is read. -/
  | closing (comment : mode = .blockComment) : Within mode braces ⟨.code, true, braces⟩
  | interpolation (inside : Mode) (claimed : Bool) (inner : List Nat) (template : mode = .template)
      (nonempty : inner ≠ []) : Within mode braces ⟨inside, claimed, inner ++ braces⟩

section Steps

variable {mode : Mode} {braces : List Nat} (b : UInt8) (next : Option UInt8)

private theorem within_code {inner : List Nat} (template : mode = .template)
    (nonempty : inner ≠ []) : Within mode braces (codeStep (inner ++ braces) b next) := by
  have stays (inside : Mode) (claimed : Bool) :
      Within mode braces ⟨inside, claimed, inner ++ braces⟩ :=
    .interpolation inside claimed inner template nonempty
  obtain ⟨count, others, rfl⟩ := List.exists_cons_of_ne_nil nonempty
  unfold codeStep
  split_ifs
  · exact stays ..
  · exact stays ..
  · exact stays ..
  · exact stays ..
  · exact stays ..
  · have counted (count : Nat) : Within mode braces ⟨.code, false, count :: (others ++ braces)⟩ :=
      .interpolation _ _ (count :: others) template (List.cons_ne_nil _ _)
    have left : Within mode braces ⟨.template, false, others ++ braces⟩ := by
      by_cases outermost : others = []
      · rw [outermost, ← template]
        exact .text false
      · exact .interpolation _ _ others template outermost
    rw [List.cons_append]
    cases count with
    | zero =>
      simp only [braceStep]
      split_ifs
      · exact counted 1
      · exact left
      · exact counted 0
    | succ count =>
      simp only [braceStep]
      split_ifs
      · exact counted (count + 2)
      · exact counted count
      · exact counted (count + 1)

private theorem within_interpolation {inner : List Nat} (inside : Mode) (claimed : Bool)
    (template : mode = .template) (nonempty : inner ≠ []) :
    Within mode braces (step ⟨inside, claimed, inner ++ braces⟩ b next) := by
  have stays (inside : Mode) (claimed : Bool) :
      Within mode braces ⟨inside, claimed, inner ++ braces⟩ :=
    .interpolation inside claimed inner template nonempty
  cases claimed with
  | true => exact stays ..
  | false =>
    cases inside with
    | code => exact within_code b next template nonempty
    | quoted quote =>
      simp only [step, Bool.false_eq_true, if_false]
      split_ifs <;> exact stays ..
    | lineComment | blockComment =>
      simp only [step, Bool.false_eq_true, if_false]
      split_ifs <;> exact stays ..
    | template =>
      simp only [step, Bool.false_eq_true, if_false]
      split_ifs
      · exact stays ..
      · exact stays ..
      · exact .interpolation _ _ (0 :: inner) template (List.cons_ne_nil _ _)
      · exact stays ..

private theorem within_text (literal : mode ≠ .code) (claimed : Bool) :
    Within mode braces (step ⟨mode, claimed, braces⟩ b next) ∨
      step ⟨mode, claimed, braces⟩ b next = ⟨.code, false, braces⟩ := by
  cases claimed with
  | true => exact .inl (.text false)
  | false =>
    cases mode with
    | code => contradiction
    | quoted quote =>
      simp only [step, Bool.false_eq_true, if_false]
      split_ifs
      · exact .inl (.text true)
      · exact .inr rfl
      · exact .inl (.text false)
    | lineComment =>
      simp only [step, Bool.false_eq_true, if_false]
      split_ifs
      · exact .inr rfl
      · exact .inl (.text false)
    | blockComment =>
      simp only [step, Bool.false_eq_true, if_false]
      split_ifs
      · exact .inl (.closing rfl)
      · exact .inl (.text false)
    | template =>
      simp only [step, Bool.false_eq_true, if_false]
      split_ifs
      · exact .inl (.text true)
      · exact .inr rfl
      · exact .inl (.interpolation _ _ [0] rfl (List.cons_ne_nil _ _))
      · exact .inl (.text false)

/-- A literal goes on until the scanner is back in the code around it. -/
theorem Within.step {state : State} (within : Within mode braces state) (literal : mode ≠ .code) :
    Within mode braces (step state b next) ∨
      Scanner.step state b next = ⟨.code, false, braces⟩ := by
  cases within with
  | text claimed => exact within_text b next literal claimed
  | closing comment => exact .inr rfl
  | interpolation inside claimed inner template nonempty =>
    exact .inl (within_interpolation b next inside claimed template nonempty)

private theorem not_within_code (literal : mode ≠ .code) :
    ¬Within mode braces ⟨.code, false, braces⟩ := by
  generalize reached : (⟨.code, false, braces⟩ : State) = state
  intro within
  cases within with
  | text claimed => exact literal (State.mk.inj reached).1.symm
  | closing comment => exact absurd (State.mk.inj reached).2.1 (by decide)
  | interpolation inside claimed inner template nonempty =>
    have same : braces = inner ++ braces := (State.mk.inj reached).2.2
    exact nonempty (List.self_eq_append_left.mp same)

/-- A literal is left at a quote or a backtick, at a line end, or behind the delimiter that ends a
comment. -/
theorem Within.byte_of_step {state : State} (within : Within mode braces state)
    (literal : mode ≠ .code) (left : Scanner.step state b next = ⟨.code, false, braces⟩) :
    state = ⟨.code, true, braces⟩ ∧ mode = .blockComment ∨
      b = Byte.newline ∧ mode.endsWithLine = true ∧ state = ⟨mode, false, braces⟩ ∨
      b ∈ delimiters := by
  cases within with
  | closing comment => exact .inl ⟨rfl, comment⟩
  | interpolation inside claimed inner template nonempty =>
    have stays : Within mode braces (Scanner.step ⟨inside, claimed, inner ++ braces⟩ b next) :=
      within_interpolation b next inside claimed template nonempty
    exact absurd (left ▸ stays) (not_within_code literal)
  | text claimed =>
    right
    cases claimed with
    | true => exact absurd (congrArg State.mode left) literal
    | false =>
      cases mode with
      | code => contradiction
      | quoted quote =>
        simp only [Scanner.step, Bool.false_eq_true, if_false] at left
        split_ifs at left with escape ending
        · simp at left
        · rcases ending with rfl | rfl
          · exact .inl ⟨rfl, rfl, rfl⟩
          · exact .inr (by cases quote <;> decide)
        · simp at left
      | lineComment =>
        simp only [Scanner.step, Bool.false_eq_true, if_false] at left
        split_ifs at left with ending
        · exact .inl ⟨ending, rfl, rfl⟩
        · simp at left
      | blockComment =>
        simp only [Scanner.step, Bool.false_eq_true, if_false] at left
        split_ifs at left <;> simp at left
      | template =>
        simp only [Scanner.step, Bool.false_eq_true, if_false] at left
        split_ifs at left with escape tick opening
        · simp at left
        · exact .inr (by rw [tick]; decide)
        · simp at left
        · simp at left

/-- The delimiter that ends a comment has a slash as its second byte. -/
theorem Within.next_of_step {state : State} (within : Within mode braces state)
    (comment : mode = .blockComment)
    (closes : Scanner.step state b next = ⟨.code, true, braces⟩) : next = some Byte.slash := by
  subst comment
  cases within with
  | closing => simp [Scanner.step] at closes
  | interpolation inside claimed inner template nonempty => contradiction
  | text claimed =>
    cases claimed with
    | true => simp [Scanner.step] at closes
    | false =>
      simp only [Scanner.step, Bool.false_eq_true, if_false] at closes
      split_ifs at closes with ending
      · exact ending.2
      · simp at closes

/-- Of a comment the mask shows nothing. -/
theorem Within.shows_of_comment {state : State} (within : Within mode braces state)
    (comment : mode = .lineComment ∨ mode = .blockComment) : shows state b next = false := by
  cases within with
  | closing => simp [shows]
  | interpolation inside claimed inner template nonempty => simp [template] at comment
  | text claimed => rcases comment with rfl | rfl <;> simp [shows]

end Steps

namespace IsLiteral

variable {text : Text} {literal : Span} {place : Nat} (isLiteral : IsLiteral text literal)
include isLiteral

/-- Between its delimiters a literal is not left. -/
theorem within (behind : literal.start < place) (inside : place < literal.stop) :
    Within (stateAt text (literal.start + 1)).mode (stateAt text literal.start).braces
      (stateAt text place) := by
  obtain ⟨-, -, leaves, same⟩ := isLiteral.begins
  induction behind with
  | refl =>
    rw [← same]
    exact .text _
  | @step place behind ih =>
    rw [Nat.succ_eq_add_one] at inside ⊢
    have starts : literal.start < place := behind
    have here := ih (by omega)
    cases reads : text[place]? with
    | none => rwa [stateAt_succ_of_none reads]
    | some b =>
      rw [stateAt_succ reads]
      refine (here.step b text[place + 1]? leaves).resolve_right fun back => ?_
      refine isLiteral.runs (place + 1) inside (by omega) ?_
      rw [← stateAt_succ reads] at back
      simp [IsOver, back]

/-- Inside a literal code stands only in the interpolations of a template. -/
theorem template_of_code (behind : literal.start < place) (inside : place < literal.stop)
    (code : (stateAt text place).mode = .code) (free : (stateAt text place).claimed = false) :
    text[literal.start]? = some Byte.backtick ∧ Interpolates text literal place := by
  have here := isLiteral.within behind inside
  generalize reached : stateAt text place = state at here code free
  cases here with
  | text claimed => exact absurd code isLiteral.begins.2.2.1
  | closing comment => contradiction
  | interpolation inner_mode claimed inner template nonempty =>
    have deeper := List.length_pos_iff.mpr nonempty
    refine ⟨isLiteral.begins.backtick template, behind, inside, ?_, ?_⟩
    · rw [reached, code]
    · rw [reached, List.length_append]
      omega

/-- A literal stands in its text. -/
theorem stop_le : literal.stop ≤ text.length := by
  obtain ⟨delimiter, -, reads⟩ := isLiteral.begins.exists_delimiter
  have inside := (List.getElem?_eq_some_iff.mp reads).1
  rcases isLiteral.ends with whole | ended
  · exact whole.le
  · by_contra outside
    refine isLiteral.runs text.length (by omega) inside ?_
    have ends : ∀ extra, stateAt text (text.length + extra) = stateAt text text.length := by
      intro extra
      induction extra with
      | zero => rfl
      | succ extra ih =>
        rw [← Nat.add_assoc, stateAt_succ_of_none (List.getElem?_eq_none (by omega)), ih]
    have past : text[literal.stop]? = none := List.getElem?_eq_none (by omega)
    have same := ends (literal.stop - text.length)
    rw [Nat.add_sub_cancel' (by omega)] at same
    rw [IsOver, past, same] at ended
    obtain ⟨free, around, code | ⟨noLine, -⟩⟩ := ended
    · exact ⟨free, around, .inl code⟩
    · contradiction

/-- A literal ends with its text, in front of a line end or with a delimiter. -/
theorem ends_at : literal.stop = text.length ∨ text[literal.stop]? = some Byte.newline ∨
    ∃ b ∈ delimiters, text[literal.stop - 1]? = some b := by
  refine isLiteral.ends.imp_right fun ⟨free, around, ended⟩ =>
    ended.symm.imp And.left fun code => ?_
  obtain ⟨-, -, leaves, -⟩ := isLiteral.begins
  have starts := isLiteral.nonempty
  have inside := isLiteral.stop_le
  obtain ⟨last, lastEq⟩ : ∃ last, literal.stop = last + 1 := Nat.exists_eq_add_one.mpr (by omega)
  rw [lastEq] at free around code ⊢
  have behind : literal.start < last := by
    refine Nat.lt_of_le_of_ne (by omega) ?_
    rintro same
    exact leaves (same ▸ code)
  have within := isLiteral.within behind (by omega)
  have back : stateAt text (last + 1) = ⟨.code, false, (stateAt text literal.start).braces⟩ := by
    rw [← code, ← free, ← around]
  obtain ⟨b, reads⟩ : ∃ b, text[last]? = some b :=
    ⟨_, List.getElem?_eq_getElem (show last < text.length by omega)⟩
  refine ⟨b, ?_, reads⟩
  rw [stateAt_succ reads] at back
  rcases within.byte_of_step b _ leaves back with
    ⟨closing, comment⟩ | ⟨rfl, line, unclaimed⟩ | member
  · obtain ⟨front, frontEq⟩ : ∃ front, last = front + 1 := Nat.exists_eq_add_one.mpr (by omega)
    have later : literal.start < front := by
      refine Nat.lt_of_le_of_ne (by omega) ?_
      rintro same
      rw [same, ← frontEq, closing] at leaves
      exact leaves rfl
    obtain ⟨c, before⟩ : ∃ c, text[front]? = some c :=
      ⟨_, List.getElem?_eq_getElem (show front < text.length by omega)⟩
    rw [frontEq, stateAt_succ before] at closing
    have slash := (isLiteral.within later (by omega)).next_of_step c _ comment closing
    rw [← frontEq, reads, Option.some.injEq] at slash
    rw [slash]
    decide
  · refine absurd ⟨?_, ?_, .inr ⟨reads, ?_⟩⟩ (isLiteral.runs last (by omega) behind)
    · rw [unclaimed]
    · rw [unclaimed]
    · rw [unclaimed]
      exact line
  · exact member

/-- Of a comment the mask shows nothing but its line ends. -/
theorem mask_of_comment {b : UInt8} (slash : text[literal.start]? = some Byte.slash)
    (behind : literal.start ≤ place) (inside : place < literal.stop) (reads : text[place]? = some b) :
    text.mask[place]? = some (Byte.blanked b) := by
  have comment := isLiteral.begins.comment slash
  have hidden : shows (stateAt text place) b text[place + 1]? = false := by
    rcases Nat.eq_or_lt_of_le behind with rfl | later
    · obtain ⟨code, free, -, -⟩ := isLiteral.begins
      obtain rfl : b = Byte.slash := Option.some.inj (reads.symm.trans slash)
      rcases comment with ⟨next, -⟩ | ⟨next, -⟩ <;> simp [shows, code, showsCode, next]
    · exact (isLiteral.within later inside).shows_of_comment _ _
        (comment.imp And.right And.right)
  rw [getElem?_mask reads, shown, hidden]
  rfl

end IsLiteral

end Scanner

end BareComponent
