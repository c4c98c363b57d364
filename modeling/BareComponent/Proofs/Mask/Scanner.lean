import BareComponent.Require.Site

/-! # The mask as a scan

A scanner reads a text once from left to right, one byte at a time and with a look at the byte
that comes next, and answers for each byte what the mask shows in its place. Its state is a mode
and, for every interpolation around the place, the number of braces open in it. The mask of a
text is what the scanner shows of it, so a text scanned in two parts is masked in two parts: the
second part sees nothing of the first but the state it leaves.
-/

namespace BareComponent

namespace Scanner

/-- What kind of text a byte stands in. -/
inductive Mode where
  | code
  | quoted (quote : Quote)
  | lineComment
  | blockComment
  | template
deriving DecidableEq, Repr

/-- Where the scanner stands between two bytes. -/
structure State where
  mode : Mode
  /-- Whether the next byte belongs to the one read last: it is escaped by it, or it is the
  second byte of a delimiter. -/
  claimed : Bool
  /-- The braces open in each interpolation around the place, the innermost first. -/
  braces : List Nat
deriving DecidableEq, Repr

def start : State := ⟨.code, false, []⟩

/-- The state behind a byte of code that begins no literal: braces count inside interpolations. -/
def braceStep (b : UInt8) : List Nat → State
  | [] => ⟨.code, false, []⟩
  | 0 :: outer =>
    if b = Byte.openBrace then ⟨.code, false, 1 :: outer⟩
    else if b = Byte.closeBrace then ⟨.template, false, outer⟩
    else ⟨.code, false, 0 :: outer⟩
  | (count + 1) :: outer =>
    if b = Byte.openBrace then ⟨.code, false, (count + 2) :: outer⟩
    else if b = Byte.closeBrace then ⟨.code, false, count :: outer⟩
    else ⟨.code, false, (count + 1) :: outer⟩

/-- The state behind one more byte of code, which `next` follows. -/
def codeStep (braces : List Nat) (b : UInt8) (next : Option UInt8) : State :=
  if b = Byte.singleQuote then ⟨.quoted .single, false, braces⟩
  else if b = Byte.doubleQuote then ⟨.quoted .double, false, braces⟩
  else if b = Byte.backtick then ⟨.template, false, braces⟩
  else if b = Byte.slash ∧ next = some Byte.slash then ⟨.lineComment, false, braces⟩
  else if b = Byte.slash ∧ next = some Byte.asterisk then ⟨.blockComment, true, braces⟩
  else braceStep b braces

/-- The state behind one more byte, which `next` follows. -/
def step (state : State) (b : UInt8) (next : Option UInt8) : State :=
  if state.claimed then { state with claimed := false }
  else
    match state.mode with
    | .code => codeStep state.braces b next
    | .quoted quote =>
      if b = Byte.backslash then { state with claimed := true }
      else if b = Byte.newline ∨ b = quote.byte then { state with mode := .code }
      else state
    | .lineComment => if b = Byte.newline then { state with mode := .code } else state
    | .blockComment =>
      if b = Byte.asterisk ∧ next = some Byte.slash then ⟨.code, true, state.braces⟩ else state
    | .template =>
      if b = Byte.backslash then { state with claimed := true }
      else if b = Byte.backtick then { state with mode := .code }
      else if b = Byte.dollar ∧ next = some Byte.openBrace then ⟨.code, true, 0 :: state.braces⟩
      else state

/-- Whether a byte of code is shown: all are but the beginning of a comment and the brace that
closes an interpolation. -/
def showsCode (braces : List Nat) (b : UInt8) (next : Option UInt8) : Bool :=
  !(b == Byte.slash && (next == some Byte.slash || next == some Byte.asterisk)) &&
    !(b == Byte.closeBrace && braces.head? == some 0)

/-- Whether the mask shows a byte, which `next` follows: code and the quotes and backticks around
literals. -/
def shows (state : State) (b : UInt8) (next : Option UInt8) : Bool :=
  !state.claimed &&
    match state.mode with
    | .code => showsCode state.braces b next
    | .quoted quote => b == quote.byte
    | .lineComment | .blockComment => false
    | .template => b == Byte.backtick

def shown (state : State) (b : UInt8) (next : Option UInt8) : UInt8 :=
  if shows state b next then b else Byte.blanked b

def after (state : State) (next : Option UInt8) : Text → State
  | [] => state
  | b :: rest => after (step state b (rest.head?.or next)) next rest

/-- What the mask has in the place of a text that `next` follows. -/
def scan (state : State) (next : Option UInt8) : Text → Text
  | [] => []
  | b :: rest =>
    shown state b (rest.head?.or next) :: scan (step state b (rest.head?.or next)) next rest

@[simp] theorem scan_nil (state : State) (next : Option UInt8) : scan state next [] = [] := rfl

@[simp] theorem after_nil (state : State) (next : Option UInt8) : after state next [] = state := rfl

@[simp] theorem scan_length (state : State) (next : Option UInt8) (text : Text) :
    (scan state next text).length = text.length := by
  induction text generalizing state with
  | nil => rfl
  | cons b rest ih => simp [scan, ih]

private theorem head?_append_or (first second : Text) (next : Option UInt8) :
    (first ++ second).head?.or next = first.head?.or (second.head?.or next) := by
  cases first <;> rfl

/-- A scan goes on in the state that the first part leaves. -/
theorem scan_append (state : State) (next : Option UInt8) (first second : Text) :
    scan state next (first ++ second) = scan state (second.head?.or next) first ++
      scan (after state (second.head?.or next) first) next second := by
  induction first generalizing state with
  | nil => rfl
  | cons b rest ih => simp only [List.cons_append, scan, after, head?_append_or, ih]

/-- The state behind two texts, from the state behind the first. -/
theorem after_append (state : State) (next : Option UInt8) (first second : Text) :
    after state next (first ++ second) =
      after (after state (second.head?.or next) first) next second := by
  induction first generalizing state with
  | nil => rfl
  | cons b rest ih => simp only [List.cons_append, after, head?_append_or, ih]

/-- A byte of code that begins no literal and is no brace leaves the state as it is. -/
theorem codeStep_plain (braces : List Nat) {b : UInt8} (next : Option UInt8)
    (single : b ≠ Byte.singleQuote) (double : b ≠ Byte.doubleQuote) (tick : b ≠ Byte.backtick)
    (slash : b ≠ Byte.slash) (opening : b ≠ Byte.openBrace) (closing : b ≠ Byte.closeBrace) :
    codeStep braces b next = ⟨.code, false, braces⟩ := by
  rcases braces with _ | ⟨_ | count, outer⟩ <;>
    simp [codeStep, braceStep, single, double, tick, slash, opening, closing]

@[simp] theorem codeStep_newline (braces : List Nat) (next : Option UInt8) :
    codeStep braces Byte.newline next = ⟨.code, false, braces⟩ :=
  codeStep_plain braces next (by decide) (by decide) (by decide) (by decide) (by decide) (by decide)

@[simp] theorem shown_newline (state : State) (next : Option UInt8) :
    shown state Byte.newline next = Byte.newline := by
  unfold shown
  split <;> rfl

/-- A line end never depends on what follows it. -/
theorem step_newline (state : State) (next : Option UInt8) :
    step state Byte.newline next = step state Byte.newline none := by
  rcases state with ⟨mode, claimed, braces⟩
  have asterisk : Byte.newline ≠ Byte.asterisk := by decide
  have dollar : Byte.newline ≠ Byte.dollar := by decide
  cases mode <;> simp [step, asterisk, dollar]

end Scanner

namespace Text

open Scanner

variable (braces : List Nat)

/-- A masking function answers what the scanner shows of what it consumed, and the scanner reads
the rest as code. -/
private def Agrees (state : State) (outer : List Nat) (text : Text) (answer : Text × Text) : Prop :=
  scan state none text = answer.1 ++ scan ⟨.code, false, outer⟩ none answer.2 ∧
    answer.2.length ≤ text.length

private theorem Agrees.cons {state : State} (next : State) {outer : List Nat} {b m : UInt8}
    {rest masked remaining : Text} (shows : shown state b rest.head? = m)
    (steps : step state b rest.head? = next) (agrees : Agrees next outer rest (masked, remaining)) :
    Agrees state outer (b :: rest) (m :: masked, remaining) := by
  obtain ⟨scanned, shorter⟩ := agrees
  refine ⟨?_, Nat.le_succ_of_le shorter⟩
  simp only [scan, Option.or_none, shows, steps, scanned, List.cons_append]

private theorem Agrees.stop {state : State} {outer : List Nat} (text : Text)
    (same : scan state none text = scan ⟨.code, false, outer⟩ none text) :
    Agrees state outer text ([], text) := ⟨same, Nat.le_refl _⟩

private theorem blanked_of_ne {b : UInt8} (other : b ≠ Byte.newline) :
    Byte.blanked b = Byte.space := by
  simp [Byte.blanked, other]

private theorem maskQuoted_agrees (quote : Quote) (text : Text) :
    Agrees ⟨.quoted quote, false, braces⟩ braces text (maskQuoted quote.byte text) := by
  have other : Byte.backslash ≠ quote.byte := by cases quote <;> decide
  fun_induction maskQuoted quote.byte text with
  | case1 => exact .stop _ rfl
  | case2 =>
    refine .cons ⟨.quoted quote, true, braces⟩ ?_ (by simp [step]) (.stop _ rfl)
    simp +decide [shown, shows, other]
  | case3 escaped rest masked remaining same ih =>
    rw [same] at ih
    refine .cons ⟨.quoted quote, true, braces⟩ ?_ (by simp [step])
      (.cons _ (by simp [shown, shows]) (by simp [step]) ih)
    simp +decide [shown, shows, other]
  | case4 rest =>
    refine .stop _ ?_
    simp +decide [scan, step]
  | case5 rest plain inside =>
    refine .cons ⟨.code, false, braces⟩ (by simp [shown, shows]) ?_ (.stop _ rfl)
    simp [step, plain]
  | case6 b rest plain inside within masked remaining same ih =>
    rw [same] at ih
    refine .cons _ ?_ ?_ ih
    · simp [shown, shows, within, blanked_of_ne, inside]
    · simp [step, plain, inside, within]

private theorem maskLineComment_agrees (text : Text) :
    Agrees ⟨.lineComment, false, braces⟩ braces text (maskLineComment text) := by
  induction text with
  | nil => exact .stop _ rfl
  | cons b rest ih =>
    by_cases lineEnd : b = Byte.newline
    · subst lineEnd
      refine .stop _ ?_
      simp [scan, step]
    · have answer : maskLineComment (b :: rest) =
          (Byte.blanked b :: (maskLineComment rest).1, (maskLineComment rest).2) := by
        simp [maskLineComment, blanked, lineEnd]
      rw [answer]
      exact .cons _ (by simp [shown, shows]) (by simp [step, lineEnd]) ih

private theorem maskBlockComment_agrees (text : Text) :
    Agrees ⟨.blockComment, false, braces⟩ braces text (maskBlockComment text) := by
  fun_induction maskBlockComment text with
  | case1 => exact .stop _ rfl
  | case2 b rest closing =>
    obtain ⟨rfl, follows⟩ := closing
    obtain ⟨remaining, rfl⟩ : ∃ remaining, rest = Byte.slash :: remaining :=
      List.head?_eq_some_iff.mp follows
    refine .cons ⟨.code, true, braces⟩ ?_ (by simp [step])
      (.cons _ ?_ (by simp [step]) (.stop _ rfl))
    all_goals simp +decide [shown, shows]
  | case3 b rest unclosed masked remaining same ih =>
    rw [same] at ih
    exact .cons _ (by simp [shown, shows]) (by simp only [step]; simp [unclosed]) ih

/-- The braces around code: those of the interpolation it stands in, and those farther out. -/
private def nested (outer : List Nat) : Option Nat → List Nat
  | none => []
  | some count => count :: outer

private theorem nested_head? (outer : List Nat) (braces : Option Nat) :
    (nested outer braces).head? = braces := by
  cases braces <;> rfl

private theorem braceStep_nested (outer : List Nat) (braces : Option Nat) {b : UInt8}
    (inside : ¬(b = Byte.closeBrace ∧ braces = some 0)) :
    braceStep b (nested outer braces) = ⟨.code, false, nested outer (bracesAfter braces b)⟩ := by
  rcases braces with _ | _ | count
  · rfl
  · by_cases opening : b = Byte.openBrace <;> by_cases closing : b = Byte.closeBrace <;>
      simp_all [nested, bracesAfter, braceStep]
  · by_cases opening : b = Byte.openBrace <;> by_cases closing : b = Byte.closeBrace <;>
      simp_all [nested, bracesAfter, braceStep]

/-- Masking code answers what the scanner shows of it up to the brace that closes the
interpolation around it, or up to the end. -/
private structure CodeAgrees (outer : List Nat) (braces : Option Nat) (text : Text)
    (answer : Text × Text) : Prop where
  scanned : scan ⟨.code, false, nested outer braces⟩ none text =
    answer.1 ++ scan ⟨.code, false, 0 :: outer⟩ none answer.2
  shorter : answer.2.length ≤ text.length
  stopped : answer.2 = [] ∨ answer.2.head? = some Byte.closeBrace ∧ braces ≠ none

private theorem CodeAgrees.nil (outer : List Nat) (braces : Option Nat) :
    CodeAgrees outer braces [] ([], []) := ⟨rfl, Nat.le_refl _, .inl rfl⟩

private theorem CodeAgrees.literal {outer : List Nat} {braces : Option Nat} {state : State}
    {b m : UInt8} {rest literal remaining masked last : Text}
    (shows : shown ⟨.code, false, nested outer braces⟩ b rest.head? = m)
    (steps : step ⟨.code, false, nested outer braces⟩ b rest.head? = state)
    (inside : Agrees state (nested outer braces) rest (literal, remaining))
    (behind : CodeAgrees outer braces remaining (masked, last)) :
    CodeAgrees outer braces (b :: rest) (m :: literal ++ masked, last) where
  scanned := by
    simp only [scan, Option.or_none, shows, steps, inside.1, behind.scanned, List.cons_append,
      List.append_assoc]
  shorter := Nat.le_succ_of_le (Nat.le_trans behind.shorter inside.2)
  stopped := behind.stopped

private theorem CodeAgrees.plain {outer : List Nat} {braces : Option Nat} {b : UInt8}
    {rest : Text} {answer : Text × Text}
    (shows : shown ⟨.code, false, nested outer braces⟩ b rest.head? = b)
    (steps : step ⟨.code, false, nested outer braces⟩ b rest.head? =
      ⟨.code, false, nested outer (bracesAfter braces b)⟩)
    (behind : CodeAgrees outer (bracesAfter braces b) rest answer) :
    CodeAgrees outer braces (b :: rest) (b :: answer.1, answer.2) where
  scanned := by
    simp only [scan, Option.or_none, shows, steps, behind.scanned, List.cons_append]
  shorter := Nat.le_succ_of_le behind.shorter
  stopped := by
    refine behind.stopped.imp_right fun ⟨head, inside⟩ => ⟨head, fun noneAround => inside ?_⟩
    rw [noneAround]
    rfl

private theorem CodeAgrees.interpolation {outer : List Nat} {inner : Text} {answer : Text × Text}
    (masked : Text → Text × Text) (inside : CodeAgrees outer (some 0) inner answer)
    (behind : ∀ closing, closing.length ≤ inner.length →
      Agrees ⟨.template, false, outer⟩ outer closing (masked closing)) :
    Agrees ⟨.code, false, 0 :: outer⟩ outer inner
      (answer.1 ++ blanked (answer.2.take 1) ++ (masked answer.2.tail).1,
        (masked answer.2.tail).2) := by
  obtain ⟨code, rest⟩ := answer
  obtain ⟨scanned, shorter, stopped⟩ := inside
  dsimp only at scanned shorter stopped ⊢
  rcases stopped with rfl | ⟨closes, -⟩
  · obtain ⟨template, templateShorter⟩ := behind [] (Nat.zero_le _)
    refine ⟨?_, Nat.le_trans templateShorter (Nat.zero_le _)⟩
    rw [nested, scan_nil, List.append_nil] at scanned
    rw [scan_nil] at template
    rw [scanned, List.take_nil, List.tail_nil, List.append_assoc, List.append_assoc, ← template]
    simp [blanked]
  · obtain ⟨tail, rfl⟩ : ∃ tail, rest = Byte.closeBrace :: tail := List.head?_eq_some_iff.mp closes
    rw [List.length_cons] at shorter
    obtain ⟨template, templateShorter⟩ := behind tail (by omega)
    refine ⟨?_, Nat.le_trans templateShorter (by omega)⟩
    have shows : shown ⟨.code, false, 0 :: outer⟩ Byte.closeBrace tail.head? = Byte.space := by
      simp +decide [shown, Scanner.shows, showsCode]
    have steps : step ⟨.code, false, 0 :: outer⟩ Byte.closeBrace tail.head? =
        ⟨.template, false, outer⟩ := by simp +decide [step, codeStep, braceStep]
    rw [nested] at scanned
    simp only [scanned, scan, Option.or_none, shows, steps, template, List.take_succ_cons,
      List.take_zero, List.tail_cons, List.append_assoc]
    rfl

section Step

variable {fuel : Nat}
  (code : ∀ outer braces text, text.length < fuel →
    CodeAgrees outer braces text (maskCode fuel braces text))
  (template : ∀ outer text, text.length < fuel →
    Agrees ⟨.template, false, outer⟩ outer text (maskTemplate fuel text))
include code template

private theorem maskCode_cons_agrees (outer : List Nat) (braces : Option Nat) (b : UInt8)
    {rest : Text} (shorter : rest.length < fuel) :
    CodeAgrees outer braces (b :: rest) (maskCode (fuel + 1) braces (b :: rest)) := by
  rw [maskCode]
  split
  · next quote =>
    obtain ⟨kind, rfl⟩ : ∃ kind : Quote, b = kind.byte := by
      rcases quote with rfl | rfl
      · exact ⟨.single, rfl⟩
      · exact ⟨.double, rfl⟩
    have inside := maskQuoted_agrees (nested outer braces) kind rest
    refine .literal ?_ ?_ inside (code outer braces _ (Nat.lt_of_le_of_lt inside.2 shorter))
    · cases kind <;> simp +decide [shown, shows, showsCode]
    · cases kind <;> simp +decide [step, codeStep]
  split
  · next tick =>
    have inside := template (nested outer braces) rest shorter
    subst tick
    refine .literal ?_ ?_ inside (code outer braces _ (Nat.lt_of_le_of_lt inside.2 shorter))
    · simp +decide [shown, shows, showsCode]
    · simp +decide [step, codeStep]
  split
  · next opening =>
    obtain ⟨rfl, follows⟩ := opening
    have inside := maskLineComment_agrees (nested outer braces) rest
    refine .literal ?_ ?_ inside (code outer braces _ (Nat.lt_of_le_of_lt inside.2 shorter))
    · simp [shown, shows, showsCode, follows]
    · simp +decide [step, codeStep, follows]
  split
  · next opening =>
    obtain ⟨rfl, follows⟩ := opening
    obtain ⟨remaining, rfl⟩ : ∃ remaining, rest = Byte.asterisk :: remaining :=
      List.head?_eq_some_iff.mp follows
    have inside : Agrees ⟨.blockComment, true, nested outer braces⟩ (nested outer braces)
        (Byte.asterisk :: remaining) (Byte.space :: (maskBlockComment remaining).1,
          (maskBlockComment remaining).2) :=
      .cons _ (by simp +decide [shown, shows]) (by simp [step])
        (maskBlockComment_agrees (nested outer braces) remaining)
    refine .literal ?_ ?_ inside (code outer braces _ (Nat.lt_of_le_of_lt inside.2 shorter))
    · simp +decide [shown, shows, showsCode]
    · simp +decide [step, codeStep]
  split
  · next closing =>
    obtain ⟨rfl, rfl⟩ := closing
    exact ⟨rfl, Nat.le_refl _, .inr ⟨rfl, by simp⟩⟩
  · next quote tick line block closing =>
    refine .plain ?_ ?_ (code outer _ rest shorter)
    · have visible : showsCode (nested outer braces) b rest.head? = true := by
        grind [showsCode, nested_head?]
      simp [shown, shows, visible]
    · obtain ⟨single, double⟩ := not_or.mp quote
      simp only [step, codeStep, single, double, tick, line, block, Bool.false_eq_true, if_false]
      exact braceStep_nested outer braces closing

private theorem maskTemplate_cons_agrees (outer : List Nat) (b : UInt8) {rest : Text}
    (shorter : rest.length < fuel) :
    Agrees ⟨.template, false, outer⟩ outer (b :: rest) (maskTemplate (fuel + 1) (b :: rest)) := by
  rw [maskTemplate]
  split
  · next escape =>
    subst escape
    cases rest with
    | nil =>
      have nothing : maskTemplate fuel [] = ([], []) := by cases fuel <;> rfl
      simp only [List.tail_nil, nothing, List.take_nil]
      exact .cons _ (by simp +decide [shown, shows]) rfl (.stop _ rfl)
    | cons escaped rest =>
      refine .cons ⟨.template, true, outer⟩ ?_ (by simp [step])
        (.cons _ (by simp [shown, shows]) (by simp [step]) (template outer rest ?_))
      · simp +decide [shown, shows]
      · exact Nat.lt_of_succ_lt shorter
  split
  · next escape tick =>
    subst tick
    exact .cons _ (by simp [shown, shows]) (by simp +decide [step]) (.stop _ rfl)
  split
  · next escape tick opening =>
    obtain ⟨rfl, follows⟩ := opening
    obtain ⟨inner, rfl⟩ : ∃ inner, rest = Byte.openBrace :: inner :=
      List.head?_eq_some_iff.mp follows
    have inside := code outer (some 0) inner (Nat.lt_of_succ_lt shorter)
    refine Agrees.cons ⟨.code, true, 0 :: outer⟩ ?_ ?_
      (.cons _ (by simp +decide [shown, shows]) (by simp [step])
        (CodeAgrees.interpolation (maskTemplate fuel) inside
          fun closing length => template outer closing ?_))
    · simp +decide [shown, shows]
    · simp +decide [step]
    · have := inside.shorter
      simp only [List.length_cons] at shorter
      omega
  · next escape tick opening =>
    exact .cons _ (by simp [shown, shows, tick]) (by simp [step, escape, tick, opening])
      (template outer rest shorter)

end Step

private theorem maskCode_maskTemplate_agree (fuel : Nat) :
    (∀ outer braces text, text.length < fuel →
      CodeAgrees outer braces text (maskCode fuel braces text)) ∧
    (∀ outer text, text.length < fuel →
      Agrees ⟨.template, false, outer⟩ outer text (maskTemplate fuel text)) := by
  induction fuel with
  | zero => simp
  | succ fuel ih =>
    obtain ⟨code, template⟩ := ih
    constructor
    · intro outer braces text enough
      cases text with
      | nil => exact .nil outer braces
      | cons b rest =>
        have shorter : rest.length < fuel := Nat.lt_of_succ_lt_succ enough
        exact maskCode_cons_agrees code template outer braces b shorter
    · intro outer text enough
      cases text with
      | nil => exact .stop _ rfl
      | cons b rest =>
        have shorter : rest.length < fuel := Nat.lt_of_succ_lt_succ enough
        exact maskTemplate_cons_agrees code template outer b shorter

/-- The mask of a text is what the scanner shows of it. -/
theorem mask_eq_scan (text : Text) : text.mask = scan start none text := by
  obtain ⟨scanned, -, stopped⟩ :=
    (maskCode_maskTemplate_agree (text.length + 1)).1 [] none text (Nat.lt_succ_self _)
  have whole : (maskCode (text.length + 1) none text).2 = [] :=
    stopped.resolve_right fun ⟨_, inside⟩ => inside rfl
  rw [whole, scan_nil, List.append_nil] at scanned
  exact scanned.symm

/-- A mask is as long as its text. -/
@[simp] theorem mask_length (text : Text) : text.mask.length = text.length := by
  rw [mask_eq_scan, scan_length]

end Text

end BareComponent
