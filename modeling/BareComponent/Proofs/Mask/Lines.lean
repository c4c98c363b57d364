import BareComponent.Proofs.Mask.Scanner
import BareComponent.Proofs.Text.Encoding

/-! # The lines of a text

A line runs through the line end that closes it, and the last line of a text may have none. Line
ends are single bytes, so a text in UTF-8 has the lines of its characters, and a scanner reads a
line without a look at the next one: the mask of a text has the masks of its lines, each scanned
in the state in which the line before it ends.
-/

namespace BareComponent

section LinesBy

variable {α : Type} [DecidableEq α] (stop : α)

/-- The lines of a list, each with the `stop` that ends it. -/
def linesBy : List α → List (List α)
  | [] => []
  | a :: rest =>
    if a = stop then [a] :: linesBy rest
    else
      match linesBy rest with
      | [] => [[a]]
      | line :: lines => (a :: line) :: lines

@[simp] theorem linesBy_nil : linesBy stop [] = [] := rfl

variable {stop}

theorem linesBy_last {line : List α} (nonempty : line ≠ []) (free : stop ∉ line) :
    linesBy stop line = [line] := by
  induction line with
  | nil => exact absurd rfl nonempty
  | cons a rest ih =>
    obtain ⟨other, free⟩ := not_or.mp (mt List.mem_cons.mpr free)
    cases rest with
    | nil => simp [linesBy, Ne.symm other]
    | cons b rest => rw [linesBy, if_neg (Ne.symm other), ih (List.cons_ne_nil b rest) free]

theorem linesBy_append_cons {front : List α} (free : stop ∉ front) (rest : List α) :
    linesBy stop (front ++ stop :: rest) = (front ++ [stop]) :: linesBy stop rest := by
  induction front with
  | nil => simp [linesBy]
  | cons a front ih =>
    obtain ⟨other, free⟩ := not_or.mp (mt List.mem_cons.mpr free)
    rw [List.cons_append, linesBy, if_neg (Ne.symm other), ih free]
    rfl

variable (stop)

/-- What holds of a text without lines, of one open line, and of a text with one more line in
front, holds of every text. -/
@[elab_as_elim] theorem linesBy_induction {motive : List α → Prop} (nil : motive [])
    (last : ∀ line, line ≠ [] → stop ∉ line → motive line)
    (line : ∀ front rest, stop ∉ front → motive rest → motive (front ++ stop :: rest))
    (text : List α) : motive text := by
  induction length : text.length using Nat.strongRecOn generalizing text with
  | ind count ih =>
    by_cases member : stop ∈ text
    · obtain ⟨front, rest, rfl, free⟩ := List.eq_append_cons_of_mem member
      refine line front rest free (ih rest.length ?_ rest rfl)
      rw [← length]
      simp
      omega
    · by_cases nothing : text = []
      · exact nothing ▸ nil
      · exact last text nothing member

/-- Lines joined give the text back. -/
@[simp] theorem flatten_linesBy (text : List α) : (linesBy stop text).flatten = text := by
  induction text using linesBy_induction stop with
  | nil => rfl
  | last line nonempty free => simp [linesBy_last nonempty free]
  | line front rest free ih => simp [linesBy_append_cons free, ih]

/-- Whether a list is one line: nothing but its last element may end it. -/
def IsLine (line : List α) : Prop := line ≠ [] ∧ stop ∉ line.dropLast

variable {stop}

/-- The lines of a text are lines. -/
theorem isLine_of_mem {line text : List α} (member : line ∈ linesBy stop text) :
    IsLine stop line := by
  induction text using linesBy_induction stop with
  | nil => simp at member
  | last last nonempty free =>
    rw [linesBy_last nonempty free, List.mem_singleton] at member
    subst member
    exact ⟨nonempty, fun inside => free (List.dropLast_subset _ inside)⟩
  | line front rest free ih =>
    rw [linesBy_append_cons free] at member
    rcases List.mem_cons.mp member with rfl | later
    · exact ⟨by simp, by simpa using free⟩
    · exact ih later

/-- A line that has a `stop` ends in it. -/
theorem IsLine.exists_eq_append {β : Type} {stop : β} {line : List β} (one : IsLine stop line)
    (member : stop ∈ line) : ∃ front, line = front ++ [stop] ∧ stop ∉ front := by
  obtain ⟨nonempty, free⟩ := one
  have shape := List.dropLast_append_getLast nonempty
  rw [← shape, List.mem_append, List.mem_singleton] at member
  have last : line.getLast nonempty = stop := (member.resolve_left free).symm
  rw [last] at shape
  exact ⟨line.dropLast, shape.symm, free⟩

/-- A line in front of a text is its first line. -/
theorem linesBy_append_line {line rest : List α} (one : IsLine stop line)
    (closed : stop ∉ line → rest = []) :
    linesBy stop (line ++ rest) = line :: linesBy stop rest := by
  by_cases member : stop ∈ line
  · obtain ⟨front, rfl, free⟩ := one.exists_eq_append member
    rw [List.append_assoc, List.singleton_append, linesBy_append_cons free]
  · rw [closed member, List.append_nil, linesBy_last one.1 member, linesBy_nil]

/-- Every line but the last is closed. -/
theorem pairwise_linesBy (text : List α) :
    (linesBy stop text).Pairwise fun line _ => stop ∈ line := by
  induction text using linesBy_induction stop with
  | nil => exact .nil
  | last line nonempty free => simp [linesBy_last nonempty free]
  | line front rest free ih => simp [linesBy_append_cons free, ih]

/-- Lines that are put together are the lines of the result if only the last one may be open. -/
theorem linesBy_flatten {lines : List (List α)} (one : ∀ line ∈ lines, IsLine stop line)
    (closed : lines.Pairwise fun line _ => stop ∈ line) : linesBy stop lines.flatten = lines := by
  induction lines with
  | nil => rfl
  | cons line rest ih =>
    obtain ⟨first, others⟩ := List.forall_mem_cons.mp one
    obtain ⟨ended, closed⟩ := List.pairwise_cons.mp closed
    have last : stop ∉ line → rest.flatten = [] := fun free => by
      cases rest with
      | nil => rfl
      | cons next rest => exact absurd (ended next List.mem_cons_self) free
    rw [List.flatten_cons, linesBy_append_line first last, ih others closed]

/-- Some of the lines of a text, put together, are the lines of the result. -/
theorem linesBy_flatten_of_sublist {lines : List (List α)} {text : List α}
    (kept : lines.Sublist (linesBy stop text)) : linesBy stop lines.flatten = lines :=
  linesBy_flatten (fun _ member => isLine_of_mem (kept.subset member))
    ((pairwise_linesBy text).sublist kept)

end LinesBy

namespace Text

def lines (text : Text) : List Text := linesBy Byte.newline text

theorem mem_encode_newline {characters : List Char} :
    Byte.newline ∈ encode characters ↔ '\n' ∈ characters :=
  mem_encode_iff rfl (by decide)

/-- The lines of a text are those of its characters. -/
theorem lines_encode (characters : List Char) :
    lines (encode characters) = (linesBy '\n' characters).map encode := by
  induction characters using linesBy_induction '\n' with
  | nil => rfl
  | last line nonempty free =>
    have someByte : encode line ≠ [] := fun nothing => nonempty (eq_nil_of_encode nothing)
    rw [linesBy_last nonempty free, lines, linesBy_last someByte (mt mem_encode_newline.mp free)]
    rfl
  | line front rest free ih =>
    have shape : encode (front ++ '\n' :: rest) = encode front ++ Byte.newline :: encode rest := by
      rw [encode_append, encode_cons]
      rfl
    rw [linesBy_append_cons free, shape, lines,
      linesBy_append_cons (mt mem_encode_newline.mp free), ← lines, ih, List.map_cons,
      encode_append]
    rfl

end Text

/-- A line of a script and the state in which a scanner comes to it. -/
structure ScriptLine where
  state : Scanner.State
  text : Text
deriving DecidableEq, Repr

namespace ScriptLine

/-- What the mask of the script has in the place of the line. -/
def mask (line : ScriptLine) : Text := Scanner.scan line.state none line.text

/-- The state in which a scanner leaves the line. -/
def ending (line : ScriptLine) : Scanner.State := Scanner.after line.state none line.text

/-- Lines that a scanner comes to one after the other. -/
def read (state : Scanner.State) : List Text → List ScriptLine
  | [] => []
  | text :: texts => ⟨state, text⟩ :: read (Scanner.after state none text) texts

def all (script : Text) : List ScriptLine := read Scanner.start script.lines

@[simp] theorem map_text_read (state : Scanner.State) (texts : List Text) :
    (read state texts).map text = texts := by
  induction texts generalizing state with
  | nil => rfl
  | cons line texts ih => simp [read, ih]

theorem flatMap_text_all (script : Text) : (all script).flatMap text = script := by
  rw [List.flatMap_def, all, map_text_read, Text.lines, flatten_linesBy]

end ScriptLine

namespace Scanner

variable (state : State) (next : Option UInt8)

/-- What follows a line does not change how the line is scanned. -/
theorem scan_line (front : Text) :
    scan state next (front ++ [Byte.newline]) = scan state none (front ++ [Byte.newline]) := by
  simp only [scan_append, scan, List.head?_cons, Option.some_or, List.head?_nil, Option.none_or,
    shown_newline]

/-- What follows a line does not change the state behind it. -/
theorem after_line (front : Text) :
    after state next (front ++ [Byte.newline]) = after state none (front ++ [Byte.newline]) := by
  simp only [after_append, after, List.head?_cons, Option.some_or, List.head?_nil, Option.none_or]
  rw [step_newline]

/-- A newline is shown, and the rest is scanned as what stands behind a whole line. -/
theorem scan_append_newline (front rest : Text) :
    scan state next (front ++ Byte.newline :: rest) = scan state (some Byte.newline) front ++
      Byte.newline :: scan (after state none (front ++ [Byte.newline])) next rest := by
  have frontLine : scan state none (front ++ [Byte.newline]) =
      scan state (some Byte.newline) front ++ [Byte.newline] := by
    simp [scan_append, scan]
  rw [List.append_cons, scan_append, scan_line, after_line, frontLine, List.append_assoc,
    List.singleton_append]

/-- The scanner keeps line ends and makes none. -/
theorem mem_scan_newline {text : Text} :
    Byte.newline ∈ scan state next text ↔ Byte.newline ∈ text := by
  induction text generalizing state with
  | nil => rfl
  | cons b rest ih =>
    have shownIff : Byte.newline = shown state b (rest.head?.or next) ↔ Byte.newline = b := by
      unfold shown Byte.blanked
      grind
    rw [scan, List.mem_cons, List.mem_cons, ih, shownIff]

private theorem eq_scan {text : Text}
    (visible : ∀ b ∈ scan state next text, b ≠ Byte.space ∧ b ≠ Byte.newline) :
    scan state next text = text := by
  induction text generalizing state with
  | nil => rfl
  | cons b rest ih =>
    rw [scan, List.forall_mem_cons] at visible
    obtain ⟨first, others⟩ := visible
    have same : shown state b (rest.head?.or next) = b := by
      unfold shown Byte.blanked at first ⊢
      grind
    rw [scan, ih _ others, same]

/-- What a scan shows without blanks stands in the text. -/
theorem infix_of_infix_scan {text needle : Text}
    (visible : ∀ b ∈ needle, b ≠ Byte.space ∧ b ≠ Byte.newline)
    (inside : needle <:+: scan state next text) : needle <:+: text := by
  obtain ⟨front, behind, split⟩ := inside
  have length := congrArg List.length split
  simp only [List.length_append, scan_length] at length
  obtain ⟨first, others, rfl, firstLength⟩ :
      ∃ first others, text = first ++ others ∧ first.length = front.length :=
    ⟨_, _, (List.take_append_drop front.length text).symm, by simp; omega⟩
  obtain ⟨piece, last, rfl, pieceLength⟩ :
      ∃ piece last, others = piece ++ last ∧ piece.length = needle.length :=
    ⟨_, _, (List.take_append_drop needle.length others).symm, by simp at length ⊢; omega⟩
  rw [scan_append, scan_append, List.append_assoc] at split
  obtain ⟨-, split⟩ := List.append_inj split (by simp [firstLength])
  obtain ⟨scanned, -⟩ := List.append_inj split (by simp [pieceLength])
  rw [scanned, eq_scan _ _ (scanned ▸ visible)]
  exact ⟨first, last, List.append_assoc ..⟩

/-- A scan reads one line after the other. -/
theorem scan_eq_flatMap_mask (text : Text) :
    scan state none text = (ScriptLine.read state text.lines).flatMap ScriptLine.mask := by
  induction text using linesBy_induction Byte.newline generalizing state with
  | nil => rfl
  | last line nonempty free =>
    simp [Text.lines, linesBy_last nonempty free, ScriptLine.read, ScriptLine.mask]
  | line front rest free ih =>
    rw [Text.lines, linesBy_append_cons free, ← Text.lines, ScriptLine.read, List.flatMap_cons,
      ← ih, List.append_cons, scan_append, scan_line, after_line]
    rfl

/-- The lines of a scanned text are its scanned lines. -/
theorem lines_scan (text : Text) :
    Text.lines (scan state none text) = (ScriptLine.read state text.lines).map ScriptLine.mask := by
  induction text using linesBy_induction Byte.newline generalizing state with
  | nil => rfl
  | last line nonempty free =>
    have someByte : scan state none line ≠ [] := by
      rw [← List.length_pos_iff, scan_length]
      exact List.length_pos_iff.mpr nonempty
    simp [Text.lines, linesBy_last nonempty free,
      linesBy_last someByte (mt (mem_scan_newline state none).mp free), ScriptLine.read,
      ScriptLine.mask]
  | line front rest free ih =>
    rw [scan_append_newline, Text.lines,
      linesBy_append_cons (mt (mem_scan_newline state _).mp free), ← Text.lines, ih, Text.lines,
      Text.lines, linesBy_append_cons free, ScriptLine.read, List.map_cons, ScriptLine.mask,
      scan_append_newline]
    rfl

/-- Whether a scan that starts in code outside of templates shows a text in this way and ends where
it started, whatever follows. -/
def Settles (text masked : Text) : Prop :=
  ∀ next, scan start next text = masked ∧ after start next text = start

theorem Settles.nil : Settles [] [] := fun _ => ⟨rfl, rfl⟩

/-- Texts that settle, one behind the other, settle. -/
theorem Settles.append {first second masked others : Text} (settles : Settles first masked)
    (settlesSecond : Settles second others) :
    Settles (first ++ second) (masked ++ others) := fun next => by
  obtain ⟨scanned, ended⟩ := settles (second.head?.or next)
  obtain ⟨othersScanned, othersEnded⟩ := settlesSecond next
  rw [scan_append, after_append, scanned, ended, othersScanned, othersEnded]
  exact ⟨rfl, rfl⟩

/-- Code without quotes, backticks and slashes is shown as it is. -/
theorem settles_plain {text : Text} (plain : ∀ b ∈ text, b ≠ Byte.singleQuote ∧
    b ≠ Byte.doubleQuote ∧ b ≠ Byte.backtick ∧ b ≠ Byte.slash) : Settles text text := by
  intro next
  induction text with
  | nil => exact ⟨rfl, rfl⟩
  | cons b text ih =>
    obtain ⟨⟨single, double, tick, slash⟩, others⟩ := List.forall_mem_cons.mp plain
    obtain ⟨scanned, ended⟩ := ih others
    have steps (next : Option UInt8) : step start b next = start := by
      simp [step, start, codeStep, braceStep, single, double, tick, slash]
    have visible (next : Option UInt8) : shown start b next = b := by
      simp [shown, shows, showsCode, start, slash]
    rw [scan, after, steps, visible, scanned, ended]
    exact ⟨rfl, rfl⟩

/-- Whether a scanner inside a string in quotes hides a text and stays inside. -/
def Hides (quote : Quote) (text : Text) : Prop :=
  ∀ next, scan ⟨.quoted quote, false, []⟩ next text = List.replicate text.length Byte.space ∧
    after ⟨.quoted quote, false, []⟩ next text = ⟨.quoted quote, false, []⟩

variable {quote : Quote}

theorem Hides.nil : Hides quote [] := fun _ => ⟨rfl, rfl⟩

/-- Texts hidden in a string, one behind the other, are hidden in it. -/
theorem Hides.append {first second : Text} (hides : Hides quote first)
    (others : Hides quote second) : Hides quote (first ++ second) := by
  intro next
  obtain ⟨scanned, ended⟩ := hides (second.head?.or next)
  obtain ⟨othersScanned, othersEnded⟩ := others next
  rw [scan_append, after_append, scanned, ended, othersScanned, othersEnded,
    List.length_append, List.replicate_append_replicate]
  exact ⟨rfl, rfl⟩

theorem hides_byte {b : UInt8} (other : b ≠ quote.byte) (backslash : b ≠ Byte.backslash)
    (lineEnd : b ≠ Byte.newline) : Hides quote [b] := by
  intro next
  simp [scan, after, step, shown, shows, Byte.blanked, other, backslash, lineEnd]

/-- Bytes that neither close a string nor escape what is behind them are hidden in it. -/
theorem hides_plain {text : Text} (plain : ∀ b ∈ text, b ≠ quote.byte ∧
    b ≠ Byte.backslash ∧ b ≠ Byte.newline) : Hides quote text := by
  induction text with
  | nil => exact .nil
  | cons b text ih =>
    obtain ⟨⟨other, backslash, lineEnd⟩, others⟩ := List.forall_mem_cons.mp plain
    exact (hides_byte other backslash lineEnd).append (ih others)

/-- A backslash claims the byte behind it. -/
theorem hides_escape {name : UInt8} (lineEnd : name ≠ Byte.newline) :
    Hides quote [Byte.backslash, name] := by
  intro next
  have other : Byte.backslash ≠ quote.byte := by cases quote <;> decide
  simp +decide [scan, after, step, shown, shows, Byte.blanked, other, lineEnd]

/-- What is hidden between quotes makes up a string, of which the quotes are shown. -/
theorem Hides.settles {text : Text} (hides : Hides quote text) :
    Settles (quote.byte :: text ++ [quote.byte])
      (quote.byte :: List.replicate text.length Byte.space ++ [quote.byte]) := by
  intro next
  obtain ⟨scanned, ended⟩ := hides (some quote.byte)
  have opens (next : Option UInt8) : step start quote.byte next = ⟨.quoted quote, false, []⟩ := by
    cases quote <;> simp +decide [step, start, codeStep]
  have opening (next : Option UInt8) : shown start quote.byte next = quote.byte := by
    cases quote <;> simp +decide [shown, shows, showsCode, start, Quote.byte]
  have closes : quote.byte ≠ Byte.backslash := by cases quote <;> decide
  rw [List.cons_append, scan, after, opens, opening, scan_append, after_append]
  simp only [List.head?_cons, Option.some_or, scanned, ended, scan, after]
  refine ⟨?_, ?_⟩
  · simp [shown, shows]
  · simp [step, start, closes]

end Scanner

namespace ScriptLine

/-- The masks of the lines of a script, joined, are the mask of the script. -/
theorem flatMap_mask_all (script : Text) : (all script).flatMap mask = script.mask := by
  rw [Text.mask_eq_scan, Scanner.scan_eq_flatMap_mask, all]

/-- The masks of the lines of a script are the lines of its mask. -/
theorem map_mask_all (script : Text) : (all script).map mask = script.mask.lines := by
  rw [Text.mask_eq_scan, Scanner.lines_scan, all]

end ScriptLine

end BareComponent
