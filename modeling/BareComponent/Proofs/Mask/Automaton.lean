import BareComponent.Proofs.Mask.Scanner
import Mathlib.Tactic.SplitIfs

/-! # The mask as the output of a pushdown automaton

An automaton reads a text once from left to right, one byte at a time and without a look at the byte
that comes next. Its state is a mode, a mark that says what the byte read last may make of the next
one, and a stack with the number of braces that are open in the interpolation of each template
around the place. For each byte it writes the byte or a blank; a slash in code is held back until
the next byte tells whether it begins a comment. What it writes for a text is the mask of the text.
-/

namespace BareComponent

namespace Automaton

/-- What kind of text a byte is read in. -/
inductive Mode where
  | code
  | singleQuoted
  | doubleQuoted
  | lineComment
  | blockComment
  | template
deriving DecidableEq, Repr

/-- What the byte read last may make of the next one. -/
inductive Mark where
  | plain
  /-- The last byte is a backslash, and the next one has no meaning of its own. -/
  | escape
  /-- The last byte is the first one of a delimiter if the next one is its second one: a slash in
  code, an asterisk in a block comment, a dollar sign in a template. -/
  | half
deriving DecidableEq, Repr

/-- Where the automaton stands between two bytes. -/
structure State where
  mode : Mode
  mark : Mark
  /-- The braces open in the interpolation of each template around the place, the innermost
  first. -/
  braces : List Nat
deriving DecidableEq, Repr

def start : State := ⟨.code, .plain, []⟩

/-- The state behind a byte of code that is no second byte of a delimiter. -/
def afterCode (braces : List Nat) (b : UInt8) : State :=
  if b = Byte.singleQuote then ⟨.singleQuoted, .plain, braces⟩
  else if b = Byte.doubleQuote then ⟨.doubleQuoted, .plain, braces⟩
  else if b = Byte.backtick then ⟨.template, .plain, braces⟩
  else if b = Byte.slash then ⟨.code, .half, braces⟩
  else
    match braces with
    | [] => ⟨.code, .plain, []⟩
    | count :: outer =>
      if b = Byte.openBrace then ⟨.code, .plain, (count + 1) :: outer⟩
      else if b = Byte.closeBrace ∧ count = 0 then ⟨.template, .plain, outer⟩
      else if b = Byte.closeBrace then ⟨.code, .plain, (count - 1) :: outer⟩
      else ⟨.code, .plain, count :: outer⟩

/-- The state behind one more byte of a string in quotes. -/
def afterQuoted (quote b : UInt8) (state : State) : State :=
  if state.mark = .escape then { state with mark := .plain }
  else if b = Byte.backslash then { state with mark := .escape }
  else if b = quote ∨ b = Byte.newline then ⟨.code, .plain, state.braces⟩
  else { state with mark := .plain }

def step (state : State) (b : UInt8) : State :=
  match state.mode with
  | .code =>
    if state.mark = .half ∧ b = Byte.slash then ⟨.lineComment, .plain, state.braces⟩
    else if state.mark = .half ∧ b = Byte.asterisk then ⟨.blockComment, .plain, state.braces⟩
    else afterCode state.braces b
  | .singleQuoted => afterQuoted Byte.singleQuote b state
  | .doubleQuoted => afterQuoted Byte.doubleQuote b state
  | .lineComment => if b = Byte.newline then ⟨.code, .plain, state.braces⟩ else state
  | .blockComment =>
    if state.mark = .half ∧ b = Byte.slash then ⟨.code, .plain, state.braces⟩
    else { state with mark := if b = Byte.asterisk then .half else .plain }
  | .template =>
    if state.mark = .escape then { state with mark := .plain }
    else if state.mark = .half ∧ b = Byte.openBrace then ⟨.code, .plain, 0 :: state.braces⟩
    else if b = Byte.backslash then { state with mark := .escape }
    else if b = Byte.backtick then ⟨.code, .plain, state.braces⟩
    else { state with mark := if b = Byte.dollar then .half else .plain }

/-- What is held back in a state: a slash in code, which is shown unless the next byte makes it
begin a comment. -/
def held (state : State) : Text :=
  if state.mode = .code ∧ state.mark = .half then [Byte.slash] else []

/-- A literal shows its closing delimiter, unless that is escaped, and hides every other byte. -/
def writtenInside (delimiter b : UInt8) (state : State) : Text :=
  [if b = delimiter ∧ state.mark ≠ .escape then b else Byte.blanked b]

/-- What is written when a byte is read. Code is shown but for the brace that closes an
interpolation, and comments are hidden with their delimiters. -/
def written (state : State) (b : UInt8) : Text :=
  match state.mode with
  | .code =>
    if state.mark = .half ∧ (b = Byte.slash ∨ b = Byte.asterisk) then [Byte.space, Byte.space]
    else if b = Byte.slash then held state
    else if b = Byte.closeBrace ∧ state.braces.head? = some 0 then held state ++ [Byte.space]
    else held state ++ [b]
  | .singleQuoted => writtenInside Byte.singleQuote b state
  | .doubleQuoted => writtenInside Byte.doubleQuote b state
  | .lineComment | .blockComment => [Byte.blanked b]
  | .template => writtenInside Byte.backtick b state

/-- What the automaton writes for a text that it reads in a state. At the end of the text nothing
is held back any longer. -/
def run (state : State) : Text → Text
  | [] => held state
  | b :: rest => written state b ++ run (step state b) rest

/-- The state in which the scanner stands where the automaton stands, if `next` follows. -/
def seen (state : State) (next : Option UInt8) : Scanner.State :=
  match state.mode, state.mark with
  | .code, .half => Scanner.codeStep state.braces Byte.slash next
  | .code, _ => ⟨.code, false, state.braces⟩
  | .singleQuoted, mark => ⟨.quoted .single, mark = .escape, state.braces⟩
  | .doubleQuoted, mark => ⟨.quoted .double, mark = .escape, state.braces⟩
  | .lineComment, _ => ⟨.lineComment, false, state.braces⟩
  | .blockComment, .half => Scanner.step ⟨.blockComment, false, state.braces⟩ Byte.asterisk next
  | .blockComment, _ => ⟨.blockComment, false, state.braces⟩
  | .template, .half => Scanner.step ⟨.template, false, state.braces⟩ Byte.dollar next
  | .template, mark => ⟨.template, mark = .escape, state.braces⟩

/-- What the scanner has shown of the bytes that the automaton still holds back. -/
def shownHeld (state : State) (next : Option UInt8) : Text :=
  (held state).map fun b => Scanner.shown ⟨.code, false, state.braces⟩ b next

private theorem codeStep_slash (braces : List Nat) {next : Option UInt8}
    (noComment : next ≠ some Byte.slash ∧ next ≠ some Byte.asterisk) :
    Scanner.codeStep braces Byte.slash next = ⟨.code, false, braces⟩ := by
  rcases braces with _ | ⟨_ | count, outer⟩ <;>
    simp +decide [Scanner.codeStep, Scanner.braceStep, noComment]

section Code

variable (braces : List Nat) {mark : Mark} {b : UInt8}
  (noComment : ¬(mark = .half ∧ (b = Byte.slash ∨ b = Byte.asterisk)))
include noComment

private theorem seen_of_no_comment :
    seen ⟨.code, mark, braces⟩ (some b) = ⟨.code, false, braces⟩ := by
  cases mark with
  | half => exact codeStep_slash braces (by simpa using noComment)
  | plain => rfl
  | escape => rfl

private theorem step_of_no_comment : step ⟨.code, mark, braces⟩ b = afterCode braces b := by
  simp only [step]
  grind

end Code

private theorem seen_afterCode (braces : List Nat) (b : UInt8) (next : Option UInt8) :
    seen (afterCode braces b) next = Scanner.codeStep braces b next := by
  by_cases slash : b = Byte.slash
  · subst slash
    rfl
  · rcases braces with _ | ⟨_ | count, outer⟩
    all_goals
      simp only [afterCode, Scanner.codeStep, Scanner.braceStep, slash]
      split_ifs <;> simp_all [seen]

private theorem seen_afterQuoted (quote : Quote) {state : State} {mode : Mode}
    (here : state.mode = mode)
    (seenMode : ∀ mark braces next, seen ⟨mode, mark, braces⟩ next =
      ⟨.quoted quote, mark = .escape, braces⟩) (b : UInt8) (next : Option UInt8) :
    seen (afterQuoted quote.byte b state) next = Scanner.step (seen state (some b)) b next := by
  rcases state with ⟨_, mark, braces⟩
  obtain rfl := here
  rw [seenMode, afterQuoted, Scanner.step]
  by_cases escaped : mark = .escape
  · simp [escaped, seenMode]
  · by_cases backslash : b = Byte.backslash
    · simp [escaped, backslash, seenMode]
    · by_cases ends : b = Byte.newline ∨ b = quote.byte
      · simp [escaped, backslash, ends, ends.symm, seen]
      · simp [escaped, backslash, ends, mt Or.symm ends, seenMode]

private theorem seen_comment_step (braces : List Nat) (mark : Mark) (b : UInt8)
    (next : Option UInt8) : seen (step ⟨.blockComment, mark, braces⟩ b) next =
      Scanner.step (seen ⟨.blockComment, mark, braces⟩ (some b)) b next := by
  by_cases closes : mark = .half ∧ b = Byte.slash
  · obtain ⟨rfl, rfl⟩ := closes
    rfl
  · have inside : seen ⟨.blockComment, mark, braces⟩ (some b) = ⟨.blockComment, false, braces⟩ := by
      cases mark <;> simp_all [seen, Scanner.step]
    by_cases asterisk : b = Byte.asterisk
    · have passes : step ⟨.blockComment, mark, braces⟩ b = ⟨.blockComment, .half, braces⟩ := by
        simp +decide [step, asterisk]
      rw [inside, passes, asterisk]
      rfl
    · have passes : step ⟨.blockComment, mark, braces⟩ b = ⟨.blockComment, .plain, braces⟩ := by
        simp [step, closes, asterisk]
      rw [inside, passes]
      simp [seen, Scanner.step, asterisk]

private theorem seen_template_step (braces : List Nat) (mark : Mark) (b : UInt8)
    (next : Option UInt8) : seen (step ⟨.template, mark, braces⟩ b) next =
      Scanner.step (seen ⟨.template, mark, braces⟩ (some b)) b next := by
  by_cases escaped : mark = .escape
  · subst escaped
    rfl
  by_cases opens : mark = .half ∧ b = Byte.openBrace
  · obtain ⟨rfl, rfl⟩ := opens
    rfl
  have inside : seen ⟨.template, mark, braces⟩ (some b) = ⟨.template, false, braces⟩ := by
    cases mark <;> simp_all +decide [seen, Scanner.step]
  rw [inside]
  by_cases backslash : b = Byte.backslash
  · simp +decide [backslash, step, escaped, seen, Scanner.step]
  by_cases tick : b = Byte.backtick
  · simp +decide [tick, step, escaped, seen, Scanner.step]
  by_cases dollar : b = Byte.dollar
  · have passes : step ⟨.template, mark, braces⟩ b = ⟨.template, .half, braces⟩ := by
      simp +decide [step, escaped, dollar]
    rw [passes, dollar]
    rfl
  · have passes : step ⟨.template, mark, braces⟩ b = ⟨.template, .plain, braces⟩ := by
      simp [step, escaped, opens, backslash, tick, dollar]
    rw [passes]
    simp [seen, Scanner.step, backslash, tick, dollar]

/-- The automaton goes on where the scanner goes on. -/
theorem seen_step (state : State) (b : UInt8) (next : Option UInt8) :
    seen (step state b) next = Scanner.step (seen state (some b)) b next := by
  rcases state with ⟨mode, mark, braces⟩
  cases mode with
  | code =>
    by_cases comment : mark = .half ∧ (b = Byte.slash ∨ b = Byte.asterisk)
    · obtain ⟨rfl, rfl | rfl⟩ := comment
      · simp +decide [step, seen, Scanner.step, Scanner.codeStep]
      · simp +decide [step, seen, Scanner.step, Scanner.codeStep]
    · rw [seen_of_no_comment braces comment, step_of_no_comment braces comment, seen_afterCode]
      rfl
  | singleQuoted => exact seen_afterQuoted .single rfl (fun _ _ _ => rfl) b next
  | doubleQuoted => exact seen_afterQuoted .double rfl (fun _ _ _ => rfl) b next
  | lineComment =>
    by_cases lineEnd : b = Byte.newline <;> simp [step, seen, Scanner.step, lineEnd]
  | blockComment => exact seen_comment_step braces mark b next
  | template => exact seen_template_step braces mark b next

private theorem held_afterCode (braces : List Nat) {b : UInt8} (other : b ≠ Byte.slash) :
    held (afterCode braces b) = [] := by
  unfold afterCode held
  grind

private theorem held_of_not_code {state : State} (inside : state.mode ≠ .code) :
    held state = [] := by
  simp [held, inside]

private theorem held_step {state : State} (inside : state.mode ≠ .code) (b : UInt8) :
    held (step state b) = [] := by
  unfold step held afterQuoted
  grind

private theorem shownHeld_of_no_comment {state : State} {b : UInt8}
    (noComment : ¬(state.mark = .half ∧ (b = Byte.slash ∨ b = Byte.asterisk))) :
    shownHeld state (some b) = held state := by
  unfold shownHeld held
  split
  · next half =>
    have visible : Scanner.showsCode state.braces Byte.slash (some b) = true := by
      simp_all +decide [Scanner.showsCode]
    simp [Scanner.shown, Scanner.shows, visible]
  · rfl

private theorem written_code (braces : List Nat) (mark : Mark) (b : UInt8) (next : Option UInt8) :
    written ⟨.code, mark, braces⟩ b ++ shownHeld (step ⟨.code, mark, braces⟩ b) next =
      shownHeld ⟨.code, mark, braces⟩ (some b) ++
        [Scanner.shown (seen ⟨.code, mark, braces⟩ (some b)) b next] := by
  by_cases comment : mark = .half ∧ (b = Byte.slash ∨ b = Byte.asterisk)
  · obtain ⟨rfl, rfl | rfl⟩ := comment
    · rfl
    · rfl
  · rw [shownHeld_of_no_comment comment, seen_of_no_comment braces comment,
      step_of_no_comment braces comment]
    by_cases slash : b = Byte.slash
    · subst slash
      have noHalf : mark ≠ .half := fun half => comment ⟨half, .inl rfl⟩
      simp +decide [written, noHalf, shownHeld, held, afterCode]
    · have behind : shownHeld (afterCode braces b) next = [] := by
        rw [shownHeld, held_afterCode braces slash, List.map_nil]
      by_cases closes : b = Byte.closeBrace ∧ braces.head? = some 0
      · simp_all +decide [written, Scanner.shown, Scanner.shows, Scanner.showsCode]
      · have visible : Scanner.showsCode braces b next = true := by
          by_cases brace : b = Byte.closeBrace
          · have deeper : ¬braces.head? = some 0 := fun ends => closes ⟨brace, ends⟩
            simp [Scanner.showsCode, slash, deeper]
          · simp [Scanner.showsCode, slash, brace]
        have all : written ⟨.code, mark, braces⟩ b = held ⟨.code, mark, braces⟩ ++ [b] := by
          simp only [written, if_neg comment, if_neg slash, if_neg closes]
        rw [all, behind, List.append_nil]
        simp [Scanner.shown, Scanner.shows, visible]

/-- What is written for a byte, and what is held back behind it, is what was held back in front of
it and what the scanner shows of it. -/
theorem written_append_shownHeld (state : State) (b : UInt8) (next : Option UInt8) :
    written state b ++ shownHeld (step state b) next =
      shownHeld state (some b) ++ [Scanner.shown (seen state (some b)) b next] := by
  rcases state with ⟨mode, mark, braces⟩
  by_cases code : mode = .code
  · subst code
    exact written_code braces mark b next
  · rw [shownHeld, held_step code, shownHeld, held_of_not_code code, List.map_nil, List.map_nil,
      List.append_nil, List.nil_append]
    cases mode with
    | code => exact absurd rfl code
    | singleQuoted =>
      simp [written, writtenInside, Scanner.shown, seen, Scanner.shows, Quote.byte, and_comm]
    | doubleQuoted =>
      simp [written, writtenInside, Scanner.shown, seen, Scanner.shows, Quote.byte, and_comm]
    | lineComment => simp [written, Scanner.shown, seen, Scanner.shows]
    | blockComment =>
      have hidden : Scanner.shows (seen ⟨.blockComment, mark, braces⟩ (some b)) b next = false := by
        by_cases closes : b = Byte.slash
        · cases mark <;> simp [seen, Scanner.step, Scanner.shows, closes]
        · cases mark <;> simp [seen, Scanner.step, Scanner.shows, closes]
      simp [written, Scanner.shown, hidden]
    | template =>
      have showsIff : Scanner.shows (seen ⟨.template, mark, braces⟩ (some b)) b next =
          (decide (b = Byte.backtick) && decide (mark ≠ .escape)) := by
        by_cases opens : b = Byte.openBrace
        · subst opens
          cases mark <;> rfl
        · cases mark with
          | plain => simp [seen, Scanner.shows, Bool.beq_eq_decide_eq]
          | escape => simp [seen, Scanner.shows]
          | half => simp +decide [seen, Scanner.step, Scanner.shows, opens, Bool.beq_eq_decide_eq]
      simp [written, writtenInside, Scanner.shown, showsIff]

/-- What the automaton writes from a state on, is what was held back in it and what the scanner
shows of the text. -/
theorem run_eq (state : State) (text : Text) :
    run state text =
      shownHeld state text.head? ++ Scanner.scan (seen state text.head?) none text := by
  induction text generalizing state with
  | nil =>
    have shown : Scanner.shown ⟨.code, false, state.braces⟩ Byte.slash none = Byte.slash := by
      simp +decide [Scanner.shown, Scanner.shows, Scanner.showsCode]
    rw [run, shownHeld, held]
    split <;> simp [shown]
  | cons b rest ih =>
    rw [run, ih, seen_step, ← List.append_assoc, written_append_shownHeld, List.append_assoc,
      List.singleton_append, List.head?_cons, Scanner.scan, Option.or_none]

end Automaton

/-- The mask of a text is what a pushdown automaton writes that reads it once from left to right. -/
theorem Text.mask_eq_run (text : Text) : text.mask = Automaton.run Automaton.start text := by
  rw [mask_eq_scan, Automaton.run_eq]
  rfl

end BareComponent
