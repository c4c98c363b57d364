import BareComponent.Proofs.Require.Line

/-! # Seams of a stripped script

Where some lines of a script are left out, a scanner reads the line behind them in the state in
which they begin. The kept lines keep their lexical status if this is the state in which they end.
Require lines end in a call, and this call stands in code. So what matters is where stretches of
require lines begin: one that begins in a comment or in a template makes a seam at which code may
become a comment.
-/

namespace BareComponent

/-- Whether each of some lines begins in the state in which the line before it ends, the first of
them in `state`. -/
def Seamless (state : Scanner.State) : List ScriptLine → Prop
  | [] => True
  | line :: lines => line.state = state ∧ Seamless line.ending lines

instance decidableSeamless (state : Scanner.State) (lines : List ScriptLine) :
    Decidable (Seamless state lines) :=
  match lines with
  | [] => isTrue trivial
  | line :: lines =>
    have := decidableSeamless line.ending lines
    inferInstanceAs (Decidable (line.state = state ∧ Seamless line.ending lines))

/-- For each kept line, the state in which the lines that are left out in front of it begin, and the
state in which they end. Where none are left out, these are the same. -/
def seams (kept : ScriptLine → Bool) (pending : Option Scanner.State) :
    List ScriptLine → List (Scanner.State × Scanner.State)
  | [] => []
  | line :: lines =>
    if kept line then (pending.getD line.state, line.state) :: seams kept none lines
    else seams kept (some (pending.getD line.state)) lines

/-- Lines that follow each other without a seam are still so without some of them if these begin and
end in the same state at each seam. -/
theorem seamless_filter_iff (kept : ScriptLine → Bool) {state : Scanner.State}
    {lines : List ScriptLine} (seamless : Seamless state lines) (pending : Option Scanner.State) :
    Seamless (pending.getD state) (lines.filter kept) ↔
      ∀ seam ∈ seams kept pending lines, seam.1 = seam.2 := by
  induction lines generalizing state pending with
  | nil => simp [Seamless, seams]
  | cons line lines ih =>
    obtain ⟨rfl, others⟩ := seamless
    rw [List.filter_cons, seams]
    split
    · rw [Seamless, List.forall_mem_cons, ← ih others none]
      exact and_congr_left fun _ => eq_comm
    · exact ih others (some (pending.getD line.state))

namespace ScriptLine

/-- Some lines are read as they are when and only when they are seamless. -/
theorem read_eq_iff {state : Scanner.State} {lines : List ScriptLine} :
    read state (lines.map text) = lines ↔ Seamless state lines := by
  induction lines generalizing state with
  | nil => simp [read, Seamless]
  | cons line lines ih =>
    obtain ⟨begins, content⟩ := line
    rw [List.map_cons, read, Seamless, List.cons.injEq, ScriptLine.mk.injEq]
    constructor
    · rintro ⟨⟨rfl, -⟩, others⟩
      exact ⟨rfl, ih.mp others⟩
    · rintro ⟨rfl, others⟩
      exact ⟨⟨rfl, rfl⟩, ih.mpr others⟩

/-- The lines of a script, none left out, begin where the line before ends. -/
theorem seamless_all (script : Text) : Seamless Scanner.start (all script) :=
  read_eq_iff.mp (by rw [all, map_text_read])

/-- Some lines of a script, put together, keep their lexical status when and only when they are
seamless, and then their masks make up the mask of the result. -/
theorem keeps_status_iff {script : Text} {kept : List ScriptLine}
    (sublist : kept.Sublist (all script)) :
    (all (kept.flatMap text) = kept ↔ Seamless Scanner.start kept) ∧
      (Seamless Scanner.start kept → Text.mask (kept.flatMap text) = kept.flatMap mask) := by
  have lines : (kept.map text).Sublist script.lines := by
    have texts := sublist.map text
    rwa [all, map_text_read] at texts
  have status : all (kept.flatMap text) = kept ↔ Seamless Scanner.start kept := by
    rw [all, List.flatMap_def, Text.lines, linesBy_flatten_of_sublist lines, read_eq_iff]
  refine ⟨status, fun seamless => ?_⟩
  rw [← flatMap_mask_all, status.mpr seamless]

end ScriptLine

/-- The bytes that may stand behind the call of a require line. -/
def closingBytes : Text :=
  [Byte.space, Byte.tab, Byte.semicolon, Byte.carriageReturn, Byte.newline]

namespace Scanner

variable {braces : List Nat}

/-- What is shown as a parenthesis is one, in code. -/
theorem code_of_shown_closeParen {state : State} {b : UInt8} {next : Option UInt8}
    (parenthesis : shown state b next = Byte.closeParen) :
    b = Byte.closeParen ∧ state = ⟨.code, false, state.braces⟩ := by
  obtain ⟨mode, claimed, braces⟩ := state
  unfold shown at parenthesis
  split at parenthesis
  · next visible =>
    subst parenthesis
    refine ⟨rfl, ?_⟩
    rw [shows, Bool.and_eq_true, Bool.not_eq_true'] at visible
    obtain ⟨rfl, visible⟩ := visible
    cases mode with
    | code => rfl
    | quoted quote => cases quote <;> simp +decide at visible
    | lineComment | blockComment | template => simp +decide at visible
  · unfold Byte.blanked at parenthesis
    split at parenthesis <;> exact absurd parenthesis (by decide)

/-- Where code shows nothing but blanks and semicolons, it goes on as code, if no comment begins and
no interpolation ends there. -/
theorem after_code_of_blank {text : Text}
    (blank : ∀ b ∈ scan ⟨.code, false, braces⟩ none text, b ∈ closingBytes)
    (slash : Byte.slash ∉ text) (brace : Byte.closeBrace ∉ text) :
    after ⟨.code, false, braces⟩ none text = ⟨.code, false, braces⟩ := by
  induction text with
  | nil => rfl
  | cons b text ih =>
    obtain ⟨noSlash, slash⟩ := not_or.mp (mt List.mem_cons.mpr slash)
    obtain ⟨noBrace, brace⟩ := not_or.mp (mt List.mem_cons.mpr brace)
    rw [scan, List.forall_mem_cons] at blank
    obtain ⟨first, others⟩ := blank
    have visible : shown ⟨.code, false, braces⟩ b (text.head?.or none) = b := by
      simp [shown, shows, showsCode, Ne.symm noSlash, Ne.symm noBrace]
    rw [visible] at first
    have stays : step ⟨.code, false, braces⟩ b (text.head?.or none) = ⟨.code, false, braces⟩ := by
      simp only [closingBytes, List.mem_cons, List.not_mem_nil, or_false] at first
      rcases braces with _ | ⟨_ | count, outer⟩ <;> rcases first with rfl | rfl | rfl | rfl | rfl <;>
        rfl
    rw [stays] at others
    rw [after, stays, ih others slash brace]

end Scanner

namespace RequireLine

/-- Whether a line ends in a parenthesis of code with nothing but blanks and a semicolon shown
behind it. The line itself ends in this code, unless a slash or a closing brace stands behind the
parenthesis. -/
def EndsInCode (line : ScriptLine) : Prop :=
  ∃ front behind braces, line.text = front ++ Byte.closeParen :: behind ∧
    Scanner.after line.state (some Byte.closeParen) front = ⟨.code, false, braces⟩ ∧
    (∀ b ∈ Scanner.scan ⟨.code, false, braces⟩ none behind, b ∈ closingBytes) ∧
    (Byte.slash ∉ behind → Byte.closeBrace ∉ behind → line.ending = ⟨.code, false, braces⟩)

private theorem Closing.blank_of_mem_encode (closing : Closing) :
    ∀ b ∈ Text.encode closing.spelled, b ∈ closingBytes := by
  have listed : ∀ c ∈ [' ', '\t', ';', '\r', '\n'], ∀ b ∈ String.utf8EncodeChar c,
      b ∈ closingBytes := Text.forall_mem_of_all (by decide +kernel)
  intro b member
  obtain ⟨c, inside, member⟩ := List.mem_flatMap.mp member
  exact listed c (closing.mem_spelled c inside) b member

/-- A parenthesis that the mask of a line shows stands in code, and what is behind it is scanned from
there. -/
theorem exists_of_mask_closeParen {line : ScriptLine} {front rest : Text}
    (shows : line.mask = front ++ Byte.closeParen :: rest) :
    ∃ above behind braces, line.text = above ++ Byte.closeParen :: behind ∧
      Scanner.after line.state (some Byte.closeParen) above = ⟨.code, false, braces⟩ ∧
      Scanner.scan ⟨.code, false, braces⟩ none behind = rest ∧
      line.ending = Scanner.after ⟨.code, false, braces⟩ none behind := by
  have length := congrArg List.length shows
  rw [ScriptLine.mask, Scanner.scan_length, List.length_append, List.length_cons] at length
  obtain ⟨above, b, behind, text, place⟩ : ∃ above b behind,
      line.text = above ++ b :: behind ∧ above.length = front.length :=
    ⟨line.text.take front.length, line.text[front.length], line.text.drop (front.length + 1),
      by rw [List.getElem_cons_drop, List.take_append_drop], by simp; omega⟩
  rw [ScriptLine.mask, text, Scanner.scan_append, Scanner.scan] at shows
  obtain ⟨-, shows⟩ := List.append_inj shows (by rw [Scanner.scan_length, place])
  obtain ⟨parenthesis, others⟩ := List.cons.inj shows
  obtain ⟨rfl, code⟩ := Scanner.code_of_shown_closeParen parenthesis
  rw [List.head?_cons, Option.some_or] at code
  generalize (Scanner.after line.state (some Byte.closeParen) above).braces = braces at code
  have stays (next : Option UInt8) : Scanner.step ⟨.code, false, braces⟩ Byte.closeParen next =
      ⟨.code, false, braces⟩ := by
    rcases braces with _ | ⟨_ | count, outer⟩ <;> rfl
  rw [List.head?_cons, Option.some_or, code, stays] at others
  refine ⟨above, behind, braces, text, code, others, ?_⟩
  rw [ScriptLine.ending, text, Scanner.after_append, List.head?_cons, Option.some_or, code,
    Scanner.after, stays]

/-- The call that a require line ends in stands in code. -/
theorem endsInCode_of_isRequireLine {script : String} {line : ScriptLine}
    (member : line ∈ ScriptLine.all script) (requires : isRequireLine line.mask = true) :
    EndsInCode line := by
  have masked : line.mask ∈ (Text.mask script).lines := by
    rw [← ScriptLine.map_mask_all]
    exact List.mem_map_of_mem member
  obtain ⟨before, call, shape, -⟩ := (isRequireLine_iff masked).mp requires
  have shows : line.mask = Text.encode (before ++ (Call.opening ++ call.inner ++
      call.quote.character :: call.name ++ call.quote.character :: call.outer)) ++
        Byte.closeParen :: Text.encode call.closing.spelled := by
    rw [shape, Call.spelled, Text.encode_append, Text.encode_append, Text.encode_append]
    simp [Text.encode_cons]
    rfl
  obtain ⟨front, behind, braces, text, code, rest, ends⟩ := exists_of_mask_closeParen shows
  have blank : ∀ b ∈ Scanner.scan ⟨.code, false, braces⟩ none behind, b ∈ closingBytes := by
    rw [rest]
    exact call.closing.blank_of_mem_encode
  exact ⟨front, behind, braces, text, code, blank, fun slash brace =>
    ends.trans (Scanner.after_code_of_blank blank slash brace)⟩

/-- The kept lines keep their lexical status when and only when they are seamless, and then their
masks make up the mask of the stripped script. They are seamless when and only when each stretch of
removed lines begins in the state in which it ends; and removed lines end in code. -/
theorem strip_keeps_status (script : String) :
    (ScriptLine.all (strip script) = keptLines script ↔
      Seamless Scanner.start (keptLines script)) ∧
    (Seamless Scanner.start (keptLines script) →
      (strip script).mask = (keptLines script).flatMap ScriptLine.mask) ∧
    (Seamless Scanner.start (keptLines script) ↔
      ∀ seam ∈ seams (!isRequireLine ·.mask) none (ScriptLine.all script), seam.1 = seam.2) ∧
    ∀ line ∈ ScriptLine.all script, line ∉ keptLines script → EndsInCode line := by
  have sublist : (keptLines script).Sublist (ScriptLine.all script) := List.filter_sublist
  obtain ⟨status, masks⟩ := ScriptLine.keeps_status_iff sublist
  rw [← strip_eq] at status masks
  refine ⟨status, masks, seamless_filter_iff _ (ScriptLine.seamless_all _) none,
    fun line member removed => endsInCode_of_isRequireLine member ?_⟩
  by_contra kept
  exact removed (List.mem_filter.mpr ⟨member, by simpa using kept⟩)

/-- A line that holds nothing but its call leaves no seam. -/
theorem strip_keeps_status_standalone :
    Seamless Scanner.start (keptLines "const a = require('x')\nfoo") ∧
      (strip "const a = require('x')\nfoo").mask =
        (keptLines "const a = require('x')\nfoo").flatMap ScriptLine.mask := by
  have seamless : Seamless Scanner.start (keptLines "const a = require('x')\nfoo") := by
    decide +kernel
  obtain ⟨-, masks, -⟩ := strip_keeps_status "const a = require('x')\nfoo"
  exact ⟨seamless, masks seamless⟩

/-- A removed line that closes a comment lets the comment run on. -/
theorem strip_opens_comment : (strip "/* a\n*/ require('x')\nfoo").mask ≠
    (keptLines "/* a\n*/ require('x')\nfoo").flatMap ScriptLine.mask := by
  decide +kernel

end RequireLine

end BareComponent
