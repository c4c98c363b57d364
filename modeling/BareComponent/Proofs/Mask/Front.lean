import BareComponent.Proofs.Mask.Lines

/-! # Whole lines in front of a text

Behind whole lines a line begins, so what stands in front of that place is cut into lines by itself,
and the scanner comes to its lines in the same states whatever follows. What follows is scanned from
the state that the whole lines leave. A text is lexically closed if that state does not matter: its
mask and the mask of anything behind it make up the mask of both.
-/

namespace BareComponent

namespace Text

/-- Whether a text is made of whole lines, so that a line begins behind it. -/
inductive IsLines : Text → Prop
  | nil : IsLines []
  | line {front rest : Text} (free : Byte.newline ∉ front) (others : IsLines rest) :
      IsLines (front ++ Byte.newline :: rest)

theorem isLines_append_newline (text : Text) : IsLines (text ++ [Byte.newline]) := by
  induction text using linesBy_induction Byte.newline with
  | nil => exact .line List.not_mem_nil .nil
  | last last nonempty free => exact .line free .nil
  | line front rest free ih =>
    rw [List.append_assoc, List.cons_append]
    exact .line free ih

/-- Whole lines in front of whole lines are whole lines. -/
theorem IsLines.append {first second : Text} (whole : IsLines first) (others : IsLines second) :
    IsLines (first ++ second) := by
  induction whole with
  | nil => exact others
  | line free _ ih =>
    rw [List.append_assoc, List.cons_append]
    exact .line free ih

theorem isLines_flatten {lines : List Text} (whole : ∀ line ∈ lines, IsLines line) :
    IsLines lines.flatten := by
  induction lines with
  | nil => exact .nil
  | cons line lines ih =>
    obtain ⟨first, others⟩ := List.forall_mem_cons.mp whole
    exact first.append (ih others)

theorem IsLines.eq_nil_or_exists {text : Text} (whole : IsLines text) :
    text = [] ∨ ∃ front, text = front ++ [Byte.newline] := by
  induction whole with
  | nil => exact .inl rfl
  | @line front rest _ _ ih =>
    rcases ih with rfl | ⟨more, rfl⟩
    · exact .inr ⟨front, rfl⟩
    · exact .inr ⟨front ++ Byte.newline :: more, by simp⟩

/-- The first line ends with the first line end. -/
theorem lines_append_cons {front : Text} (free : Byte.newline ∉ front) (rest : Text) :
    (front ++ Byte.newline :: rest).lines = (front ++ [Byte.newline]) :: rest.lines :=
  linesBy_append_cons free rest

/-- Behind whole lines a text is cut into lines by itself. -/
theorem IsLines.lines_append {first : Text} (whole : IsLines first) (second : Text) :
    (first ++ second).lines = first.lines ++ second.lines := by
  induction whole with
  | nil => rfl
  | line free _ ih =>
    rw [List.append_assoc, List.cons_append, lines_append_cons free, ih, lines_append_cons free,
      List.cons_append]

theorem IsLines.isLines_of_mem {text line : Text} (whole : IsLines text)
    (member : line ∈ text.lines) : IsLines line := by
  induction whole with
  | nil => simp [Text.lines] at member
  | @line front rest free _ ih =>
    rw [lines_append_cons free] at member
    rcases List.mem_cons.mp member with rfl | later
    · exact isLines_append_newline front
    · exact ih later

/-- What stands behind a place through the end of its line. -/
def lineBehind (text : Text) (place : Nat) : Text := (lines (text.drop place)).headD []

/-- Behind the rest of a line there is nothing if no line end closes it. -/
theorem exists_lineBehind (text : Text) (place : Nat) : ∃ rest,
    text = text.take place ++ (text.lineBehind place ++ rest) ∧
      Byte.newline ∉ (text.lineBehind place).dropLast ∧
      (Byte.newline ∉ text.lineBehind place → rest = []) := by
  obtain ⟨rest, split, free, closed⟩ : ∃ rest, text.drop place = text.lineBehind place ++ rest ∧
      Byte.newline ∉ (text.lineBehind place).dropLast ∧
      (Byte.newline ∉ text.lineBehind place → rest = []) := by
    unfold lineBehind
    induction text.drop place using linesBy_induction Byte.newline with
    | nil => exact ⟨[], rfl, List.not_mem_nil, fun _ => rfl⟩
    | last line nonempty free =>
      rw [Text.lines, linesBy_last nonempty free]
      exact ⟨[], (List.append_nil line).symm, fun inside => free (List.dropLast_subset _ inside),
        fun _ => rfl⟩
    | line front rest free ih =>
      rw [lines_append_cons free]
      refine ⟨rest, by simp, ?_, fun absent => absurd (by simp) absent⟩
      rwa [List.headD_cons, List.dropLast_concat]
  exact ⟨rest, by rw [← split, List.take_append_drop], free, closed⟩

theorem isLines_encode {characters : List Char} (line : ∀ c ∈ characters.getLast?, c = '\n') :
    IsLines (encode characters) := by
  rcases List.eq_nil_or_concat' characters with rfl | ⟨front, c, rfl⟩
  · exact .nil
  · obtain rfl := line c List.getLast?_concat
    rw [encode_append]
    exact isLines_append_newline (encode front)

/-- What stands in front of the rest of a line does not matter to it. -/
theorem lineBehind_append (front : Text) {line rest : Text} (free : Byte.newline ∉ line.dropLast)
    (closed : Byte.newline ∉ line → rest = []) :
    lineBehind (front ++ (line ++ rest)) front.length = line := by
  rw [lineBehind, List.drop_left]
  cases line with
  | nil =>
    rw [closed List.not_mem_nil]
    rfl
  | cons b line =>
    rw [lines, linesBy_append_line ⟨List.cons_ne_nil b line, free⟩ closed]
    rfl

/-- A line that begins behind a place begins behind the rest of the place's line. -/
theorem IsLines.length_le {front line rest before after : Text} (whole : IsLines before)
    (same : front ++ (line ++ rest) = before ++ after) (free : Byte.newline ∉ line.dropLast)
    (closed : Byte.newline ∉ line → rest = []) (later : front.length < before.length) :
    (front ++ line).length ≤ before.length := by
  obtain ⟨others, rfl⟩ := whole.eq_nil_or_exists.resolve_left (by rintro rfl; simp at later)
  rcases List.append_eq_append_iff.mp same with ⟨more, split, behind⟩ | ⟨more, rfl, -⟩
  · obtain ⟨passed, last, rfl⟩ := (List.eq_nil_or_concat' more).resolve_left (by
      rintro rfl
      rw [split, List.append_nil] at later
      exact Nat.lt_irrefl _ later)
    rw [← List.append_assoc] at split
    obtain ⟨rfl, ends⟩ := List.append_inj' split rfl
    obtain rfl : Byte.newline = last := (List.cons.inj ends).1
    have member : Byte.newline ∈ line := by
      by_contra absent
      rw [closed absent, List.append_nil] at behind
      exact absent (behind ▸ by simp)
    obtain ⟨shown, last, rfl⟩ := (List.eq_nil_or_concat' line).resolve_left
      (List.ne_nil_of_mem member)
    rw [List.dropLast_concat] at free
    obtain rfl : Byte.newline = last := by simpa [free] using member
    simp only [List.append_assoc, List.singleton_append] at behind
    have short : shown.length ≤ passed.length := by
      rcases List.append_eq_append_iff.mp behind with ⟨more, rfl, -⟩ | ⟨more, rfl, split⟩
      · simp
      · cases more with
        | nil => simp
        | cons b more =>
          obtain ⟨rfl, -⟩ := List.cons.inj split
          exact absurd (by simp) free
    simp
    omega
  · simp at later

/-- Whether a text and what stands behind it are masked apart. -/
def LexicallyClosed (text : Text) : Prop :=
  ∀ behind : String, (text ++ ofString behind).mask = text.mask ++ (ofString behind).mask

end Text

namespace Scanner

variable {first : Text} (whole : Text.IsLines first)
include whole

/-- What follows whole lines does not matter to how they are scanned. -/
theorem scan_of_isLines (state : State) (next : Option UInt8) :
    scan state next first = scan state none first := by
  rcases whole.eq_nil_or_exists with rfl | ⟨front, rfl⟩
  · rfl
  · exact scan_line state next front

/-- Behind whole lines the scanner does not depend on what follows them. -/
theorem after_of_isLines (state : State) (next : Option UInt8) :
    after state next first = after state none first := by
  rcases whole.eq_nil_or_exists with rfl | ⟨front, rfl⟩
  · rfl
  · exact after_line state next front

/-- The mask of a text begins with the mask of the whole lines in front. -/
theorem mask_append_of_isLines (second : Text) :
    (first ++ second).mask = first.mask ++ scan (after start none first) none second := by
  rw [Text.mask_eq_scan, Text.mask_eq_scan, scan_append, scan_of_isLines whole,
    after_of_isLines whole]

end Scanner

/-- What is scanned as a whole is masked apart from what stands behind it. -/
theorem Scanner.Settles.lexicallyClosed {text masked : Text} (settles : Settles text masked) :
    text.LexicallyClosed := by
  intro behind
  have together := settles ((Text.ofString behind).head?.or none)
  rw [Text.mask_eq_scan, Text.mask_eq_scan text, scan_append, together.1, together.2,
    (settles none).1, ← Text.mask_eq_scan]

/-- The lines behind whole lines are read from the state that these leave. -/
theorem ScriptLine.read_append {first : Text} (whole : Text.IsLines first) (state : Scanner.State)
    (second : Text) : read state (first ++ second).lines =
      read state first.lines ++ read (Scanner.after state none first) second.lines := by
  induction whole generalizing state with
  | nil => rfl
  | @line front rest free _ ih =>
    have shape : front ++ Byte.newline :: rest ++ second =
        front ++ Byte.newline :: (rest ++ second) := by simp
    have ending : Scanner.after state none (front ++ Byte.newline :: rest) =
        Scanner.after (Scanner.after state none (front ++ [Byte.newline])) none rest := by
      rw [List.append_cons, Scanner.after_append, Scanner.after_line]
    rw [shape, Text.lines_append_cons free, Text.lines_append_cons free, read, read, ih, ending,
      List.cons_append]

/-- Whole lines that leave the scanner in code, outside of all interpolations, are closed. -/
theorem Text.IsLines.lexicallyClosed {text : Text} (whole : IsLines text)
    (ends : Scanner.after Scanner.start none text = Scanner.start) : text.LexicallyClosed := by
  intro behind
  rw [Scanner.mask_append_of_isLines whole, ends, ← mask_eq_scan]

end BareComponent
