import BareComponent.Proofs.Mask.Aligned
import BareComponent.Proofs.Mask.Lines
import BareComponent.Proofs.Pattern.Encoded
import BareComponent.Proofs.Text.Replace
import BareComponent.Require.Line

/-! # Which lines are require lines

A line is a require line when its mask ends in a `require` call of one quoted name, which no word
runs into. What stands in front of the call is not looked at. The call that a line ends in is told
by reading the line from its end, so there is only one. Stripping a script keeps the other lines.
-/

namespace BareComponent

namespace Quote

def character : Quote → Char
  | single => '\x27'
  | double => '\x22'

theorem byte_eq (quote : Quote) : [quote.byte] = Text.encode [quote.character] := by
  cases quote <;> rfl

end Quote

namespace RequireLine

open Cursor Pattern

/-- Whether these characters are spaces and tabs. -/
def Gap (characters : List Char) : Prop := ∀ c ∈ characters, c = ' ' ∨ c = '\t'

/-- What may stand behind a call on its line. -/
structure Closing where
  gap : List Char
  /-- The semicolon and what stands behind it. -/
  terminator : Option (List Char)
  carriageReturn : Bool
  lineEnd : Bool
  gapValid : Gap gap
  terminatorValid : ∀ behind ∈ terminator, Gap behind

/-- The characters behind the last gap of a line. -/
def Closing.ending (closing : Closing) : List Char :=
  (if closing.carriageReturn then ['\r'] else []) ++ if closing.lineEnd then ['\n'] else []

def Closing.spelled (closing : Closing) : List Char :=
  closing.gap ++ (closing.terminator.elim [] (';' :: ·) ++ closing.ending)

/-- A call of `require` with one quoted name and what stands behind it on its line. -/
structure Call where
  inner : List Char
  quote : Quote
  name : List Char
  outer : List Char
  closing : Closing
  innerValid : Gap inner
  nameValid : quote.character ∉ name ∧ '\n' ∉ name
  outerValid : Gap outer

def Call.opening : List Char := "require(".toList

/-- The characters of a call and of what stands behind it. -/
def Call.spelled (call : Call) : List Char :=
  Call.opening ++ call.inner ++ call.quote.character :: call.name ++
    call.quote.character :: call.outer ++ ')' :: call.closing.spelled

section Parts

variable {before after : List Char} {cursor : Cursor} {value : Unit}

private theorem isGap_iff (c : Char) :
    CharacterClass.oneOf " \t" c.toNat = true ↔ c = ' ' ∨ c = '\t' := by
  have ascii : ∀ d ∈ [' ', '\t'], d.toNat < 0x80 := by simp
  have member := CharacterClass.oneOf_encode ascii c
  rw [List.mem_pair] at member
  exact member

private theorem mem_gap :
    (value, cursor) ∈ run (.oneOf " \t") (between before after) ↔
      ∃ gap rest, after = gap ++ rest ∧ Gap gap ∧ (∀ c ∈ rest.head?, ¬(c = ' ' ∨ c = '\t')) ∧
        cursor = between (before ++ gap) rest := by
  simp only [mem_run, isGap_iff, ← Bool.not_eq_true, Gap]

private theorem gap_mem (before : List Char) {gap rest : List Char} (valid : Gap gap)
    (stops : ∀ c ∈ rest.head?, ¬(c = ' ' ∨ c = '\t')) :
    ((), between (before ++ gap) rest) ∈ run (.oneOf " \t") (between before (gap ++ rest)) :=
  mem_gap.mpr ⟨gap, rest, rfl, valid, stops, rfl⟩

private theorem inside_iff (quote : Quote) (c : Char) :
    CharacterClass.noneOf [quote.byte, Byte.newline] c.toNat = true ↔
      ¬(c = quote.character ∨ c = '\n') := by
  have bytes : [quote.byte, Byte.newline] = Text.encode [quote.character, '\n'] := by
    cases quote <;> rfl
  have ascii : ∀ d ∈ [quote.character, '\n'], d.toNat < 0x80 := by
    cases quote <;> simp [Quote.character]
  rw [bytes, CharacterClass.noneOf, Bool.not_eq_true', ← Bool.not_eq_true,
    CharacterClass.oneOf_encode ascii, List.mem_pair]

/-- Where the content of a string stands that begins behind some characters. -/
def contentSpan (before : List Char) (quote : Quote) (name : List Char) : Span :=
  ⟨(Text.encode (before ++ [quote.character])).length,
    (Text.encode (before ++ quote.character :: name)).length⟩

private theorem mem_quotedIn {quote : Quote} {read : Quote × Span} :
    (read, cursor) ∈ RequireSite.quotedIn quote (between before after) ↔
      ∃ name rest, after = quote.character :: name ++ quote.character :: rest ∧
        (quote.character ∉ name ∧ '\n' ∉ name) ∧ read = (quote, contentSpan before quote name) ∧
        cursor = between (before ++ quote.character :: name ++ [quote.character]) rest := by
  have inside (name : List Char) : (quote.character ∉ name ∧ '\n' ∉ name) ↔
      ∀ c ∈ name, CharacterClass.noneOf [quote.byte, Byte.newline] c.toNat = true := by
    simp only [inside_iff]
    grind
  have place (name : List Char) : before ++ [quote.character] ++ name =
      before ++ quote.character :: name := by simp
  simp only [RequireSite.quotedIn, mem_bind, mem_spanned, mem_pure, inside]
  constructor
  · rintro ⟨_, _, opened, _, _, ⟨content, rfl⟩, _, _, closed, rfl, rfl⟩
    rw [quote.byte_eq, mem_literal] at opened
    obtain ⟨_, rfl, rfl⟩ := opened
    obtain ⟨name, _, rfl, plain, -, rfl⟩ := mem_run.mp content
    rw [quote.byte_eq, mem_literal] at closed
    obtain ⟨rest, rfl, rfl⟩ := closed
    exact ⟨name, rest, by simp, plain, by simp only [contentSpan, position_between, place],
      by simp⟩
  · rintro ⟨name, rest, rfl, plain, rfl, rfl⟩
    have opened : ((), between (before ++ [quote.character]) (name ++ quote.character :: rest)) ∈
        Pattern.literal [quote.byte]
          (between before (quote.character :: name ++ quote.character :: rest)) := by
      rw [quote.byte_eq]
      exact literal_mem before [quote.character] (name ++ quote.character :: rest)
    have content : ((), between (before ++ [quote.character] ++ name) (quote.character :: rest)) ∈
        run (.noneOf [quote.byte, Byte.newline])
          (between (before ++ [quote.character]) (name ++ quote.character :: rest)) := by
      refine mem_run.mpr ⟨name, _, rfl, plain, fun c first => ?_, rfl⟩
      obtain rfl : quote.character = c := Option.some.inj first
      rw [← Bool.not_eq_true, inside_iff]
      simp
    have closed : ((), between (before ++ quote.character :: name ++ [quote.character]) rest) ∈
        Pattern.literal [quote.byte]
          (between (before ++ [quote.character] ++ name) (quote.character :: rest)) := by
      rw [quote.byte_eq, mem_literal]
      exact ⟨rest, rfl, by simp⟩
    refine ⟨(), _, opened, _, _, ⟨content, rfl⟩, (), _, closed, ?_, rfl⟩
    simp only [contentSpan, position_between, place]

/-- What a quoted name takes, in terms of characters. -/
theorem mem_quoted {read : Quote × Span} :
    (read, cursor) ∈ RequireSite.quoted (between before after) ↔
      ∃ (quote : Quote) (name rest : List Char),
        after = quote.character :: name ++ quote.character :: rest ∧
        (quote.character ∉ name ∧ '\n' ∉ name) ∧ read = (quote, contentSpan before quote name) ∧
        cursor = between (before ++ quote.character :: name ++ [quote.character]) rest := by
  simp only [RequireSite.quoted, mem_orElse, mem_quotedIn]
  constructor
  · rintro (single | double)
    · exact ⟨.single, single⟩
    · exact ⟨.double, double⟩
  · rintro ⟨_ | _, read⟩
    · exact .inl read
    · exact .inr read

private def closingPattern : Pattern Unit := do
  Pattern.run (.oneOf " \t")
  let _ ← Pattern.optional (Pattern.literal ";")
  Pattern.run (.oneOf " \t")
  let _ ← Pattern.optional (Pattern.literal "\r")
  Pattern.literal "\n" <|> Pattern.textEnd

private theorem mem_line_end :
    (value, cursor) ∈ (Pattern.literal "\n" <|> Pattern.textEnd) (between before after) ↔
      ∃ (ended : Bool) (rest : List Char), after = (if ended then ['\n'] else []) ++ rest ∧
        (ended = false → rest = []) ∧
        cursor = between (before ++ if ended then ['\n'] else []) rest := by
  simp only [mem_orElse, Text.ofString_eq, mem_literal, mem_textEnd]
  constructor
  · rintro (⟨rest, rfl, rfl⟩ | ⟨rfl, rfl⟩)
    · exact ⟨true, rest, rfl, by simp, rfl⟩
    · exact ⟨false, [], rfl, by simp, by simp⟩
  · rintro ⟨_ | _, rest, rfl, nothing, rfl⟩
    · obtain rfl := nothing rfl
      exact .inr ⟨rfl, by simp⟩
    · exact .inl ⟨rest, rfl, rfl⟩

/-- A character may be taken or left. -/
theorem mem_optional_literal {c : Char} :
    (∃ read, (read, cursor) ∈ optional (Pattern.literal (Text.encode [c])) (between before after)) ↔
      ∃ (taken : Bool) (rest : List Char), after = (if taken then [c] else []) ++ rest ∧
        cursor = between (before ++ if taken then [c] else []) rest := by
  simp only [mem_optional, mem_literal]
  constructor
  · rintro ⟨_, ⟨_, -, rest, rfl, rfl⟩ | ⟨-, rfl⟩⟩
    · exact ⟨true, rest, rfl, rfl⟩
    · exact ⟨false, after, rfl, by simp⟩
  · rintro ⟨_ | _, rest, rfl, rfl⟩
    · exact ⟨none, .inr ⟨rfl, by simp⟩⟩
    · exact ⟨some (), .inl ⟨(), rfl, rest, rfl, rfl⟩⟩

private theorem optional_literal_mem (before : List Char) (c : Char) (taken : Bool)
    (rest : List Char) :
    ∃ read, (read, between (before ++ if taken then [c] else []) rest) ∈
      optional (Pattern.literal (Text.encode [c]))
        (between before ((if taken then [c] else []) ++ rest)) :=
  mem_optional_literal.mpr ⟨taken, rest, rfl, rfl⟩

private theorem mem_closingPattern :
    (value, cursor) ∈ closingPattern (between before after) ↔
      ∃ gap first, (gap, first) ∈ run (.oneOf " \t") (between before after) ∧
        ∃ semicolon second, (semicolon, second) ∈
          optional (Pattern.literal (Text.encode [';'])) first ∧
        ∃ behind third, (behind, third) ∈ run (.oneOf " \t") second ∧
        ∃ carriage last, (carriage, last) ∈
          optional (Pattern.literal (Text.encode ['\r'])) third ∧
        (value, cursor) ∈ (Pattern.literal "\n" <|> Pattern.textEnd) last := by
  simp only [closingPattern, mem_bind]
  rfl

private theorem closing_mem (before : List Char) (closing : Closing) {rest : List Char}
    (last : closing.lineEnd = false → rest = []) :
    (value, between (before ++ closing.spelled) rest) ∈
      closingPattern (between before (closing.spelled ++ rest)) := by
  rw [mem_closingPattern]
  have stops : ∀ c ∈ (closing.ending ++ rest).head?, ¬(c = ' ' ∨ c = '\t') := by
    unfold Closing.ending
    cases closing.carriageReturn <;> cases ended : closing.lineEnd <;> simp_all
  have ends (front : List Char) : ∃ carriage middle,
      (carriage, middle) ∈ optional (Pattern.literal (Text.encode ['\r']))
        (between front (closing.ending ++ rest)) ∧
      (value, between (front ++ closing.ending) rest) ∈
        (Pattern.literal "\n" <|> Pattern.textEnd) middle := by
    obtain ⟨carriage, returned⟩ := mem_optional_literal.mpr
      ⟨closing.carriageReturn, (if closing.lineEnd then ['\n'] else []) ++ rest,
        List.append_assoc .., rfl⟩
    exact ⟨carriage, _, returned, mem_line_end.mpr
      ⟨closing.lineEnd, rest, rfl, last, by rw [List.append_assoc]; rfl⟩⟩
  cases shape : closing.terminator with
  | some behind =>
    have stopsSemicolon : ∀ c ∈ (';' :: (behind ++ (closing.ending ++ rest))).head?,
        ¬(c = ' ' ∨ c = '\t') := by simp
    have first := gap_mem before closing.gapValid stopsSemicolon
    obtain ⟨semicolon, terminated⟩ := optional_literal_mem (before ++ closing.gap) ';' true
      (behind ++ (closing.ending ++ rest))
    have second := gap_mem (before ++ closing.gap ++ [';'])
      (closing.terminatorValid behind shape) stops
    obtain ⟨carriage, middle, returned, ended⟩ := ends (before ++ closing.gap ++ [';'] ++ behind)
    refine ⟨(), _, ?_, semicolon, _, terminated, (), _, second, carriage, middle, returned, ?_⟩
    · simpa [Closing.spelled, shape] using first
    · simpa [Closing.spelled, shape] using ended
  | none =>
    have nothing : Gap [] := fun c member => absurd member List.not_mem_nil
    have first := gap_mem before closing.gapValid stops
    obtain ⟨semicolon, terminated⟩ := optional_literal_mem (before ++ closing.gap) ';' false
      (closing.ending ++ rest)
    have second := gap_mem (before ++ closing.gap ++ []) nothing stops
    obtain ⟨carriage, middle, returned, ended⟩ := ends (before ++ closing.gap ++ [] ++ [])
    refine ⟨(), _, ?_, semicolon, _, terminated, (), _, second, carriage, middle, returned, ?_⟩
    · simpa [Closing.spelled, shape] using first
    · simpa [Closing.spelled, shape] using ended

private theorem mem_closing :
    (value, cursor) ∈ closingPattern (between before after) ↔
      ∃ (closing : Closing) (rest : List Char), after = closing.spelled ++ rest ∧
        (closing.lineEnd = false → rest = []) ∧
        cursor = between (before ++ closing.spelled) rest := by
  constructor
  · rw [mem_closingPattern]
    rintro ⟨_, _, first, semicolon, _, terminated, _, _, second, carriage, _, returned, ended⟩
    obtain ⟨gap, _, rfl, gapValid, -, rfl⟩ := mem_gap.mp first
    obtain ⟨taken, _, rfl, rfl⟩ := mem_optional_literal.mp ⟨semicolon, terminated⟩
    obtain ⟨behind, _, rfl, behindValid, -, rfl⟩ := mem_gap.mp second
    obtain ⟨carriageReturn, _, rfl, rfl⟩ := mem_optional_literal.mp ⟨carriage, returned⟩
    obtain ⟨lineEnd, rest, rfl, last, rfl⟩ := mem_line_end.mp ended
    cases taken with
    | true =>
      exact ⟨⟨gap, some behind, carriageReturn, lineEnd, gapValid, by simpa using behindValid⟩,
        rest, by simp [Closing.spelled, Closing.ending], last,
        by simp [Closing.spelled, Closing.ending]⟩
    | false =>
      have valid : Gap (gap ++ behind) := fun c member =>
        (List.mem_append.mp member).elim (gapValid c) (behindValid c)
      exact ⟨⟨gap ++ behind, none, carriageReturn, lineEnd, valid, by simp⟩,
        rest, by simp [Closing.spelled, Closing.ending], last,
        by simp [Closing.spelled, Closing.ending]⟩
  · rintro ⟨closing, rest, rfl, last, rfl⟩
    exact closing_mem before closing last

private def callPattern : Pattern Unit := do
  Pattern.literal "require("
  Pattern.run (.oneOf " \t")
  let _ ← RequireSite.quoted
  Pattern.run (.oneOf " \t")
  Pattern.literal ")"
  closingPattern

private theorem mem_call :
    (value, cursor) ∈ callPattern (between before after) ↔
      ∃ (call : Call) (rest : List Char), after = call.spelled ++ rest ∧
        (call.closing.lineEnd = false → rest = []) ∧
        cursor = between (before ++ call.spelled) rest := by
  have opening : ("require(" : Text) = Text.encode Call.opening := Text.ofString_eq _
  have closing : (")" : Text) = Text.encode [')'] := rfl
  simp only [callPattern, mem_bind, opening, closing]
  constructor
  · rintro ⟨_, _, named, _, _, first, read, _, quoted, _, _, second, _, _, closed, ended⟩
    obtain ⟨_, rfl, rfl⟩ := mem_literal.mp named
    obtain ⟨inner, _, rfl, innerValid, -, rfl⟩ := mem_gap.mp first
    obtain ⟨quote, name, _, rfl, nameValid, -, rfl⟩ := mem_quoted.mp quoted
    obtain ⟨outer, _, rfl, outerValid, -, rfl⟩ := mem_gap.mp second
    obtain ⟨_, rfl, rfl⟩ := mem_literal.mp closed
    obtain ⟨closing, rest, rfl, last, rfl⟩ := mem_closing.mp ended
    exact ⟨⟨inner, quote, name, outer, closing, innerValid, nameValid, outerValid⟩, rest,
      by simp [Call.spelled], last, by simp [Call.spelled]⟩
  · rintro ⟨⟨inner, quote, name, outer, closing, innerValid, nameValid, outerValid⟩, rest, rfl,
      last, rfl⟩
    let behind := [')'] ++ (closing.spelled ++ rest)
    let namedBehind := quote.character :: name ++ quote.character :: (outer ++ behind)
    let place := before ++ Call.opening ++ inner ++ quote.character :: name ++ [quote.character]
    have stopsQuote : ∀ c ∈ namedBehind.head?, ¬(c = ' ' ∨ c = '\t') := by
      cases quote <;> simp [namedBehind, Quote.character]
    have stopsParenthesis : ∀ c ∈ behind.head?, ¬(c = ' ' ∨ c = '\t') := by simp [behind]
    have named := literal_mem before Call.opening (inner ++ namedBehind)
    have first := gap_mem (before ++ Call.opening) innerValid stopsQuote
    have quoted := (@mem_quoted (before ++ Call.opening ++ inner) _ _ _).mpr
      ⟨quote, name, outer ++ behind, rfl, nameValid, rfl, rfl⟩
    have second := gap_mem place outerValid stopsParenthesis
    have closed := literal_mem (place ++ outer) [')'] (closing.spelled ++ rest)
    have ended := @closing_mem value (place ++ outer ++ [')']) closing rest last
    refine ⟨(), _, ?_, (), _, first, _, _, quoted, (), _, second, (), _, closed, ?_⟩
    · simpa [Call.spelled, namedBehind, behind] using named
    · simpa [Call.spelled, place] using ended

private theorem mem_front :
    (value, cursor) ∈ many (.noneOf "\n") (between before after) ↔
      ∃ front rest, after = front ++ rest ∧ '\n' ∉ front ∧
        cursor = between (before ++ front) rest := by
  have inside (c : Char) : CharacterClass.noneOf "\n" c.toNat = true ↔ c ≠ '\n' := by
    have ascii : ∀ d ∈ ['\n'], d.toNat < 0x80 := by simp
    have member := CharacterClass.oneOf_encode ascii c
    rw [List.mem_singleton] at member
    rw [CharacterClass.noneOf, Bool.not_eq_true', ← Bool.not_eq_true, ne_eq, not_iff_not]
    exact member
  simp only [mem_many, inside]
  grind

/-- What the pattern of a require line takes: a line that ends in a call. -/
theorem mem_pattern :
    (value, cursor) ∈ RequireLine.pattern (between before after) ↔
      (∀ c, before.getLast? = some c → c = '\n') ∧ ∃ (front : List Char) (call : Call)
        (rest : List Char), after = front ++ call.spelled ++ rest ∧ '\n' ∉ front ∧
          isWord front.getLast? = false ∧ (call.closing.lineEnd = false → rest = []) ∧
          cursor = between (before ++ (front ++ call.spelled)) rest := by
  have unfolded : RequireLine.pattern = (do
      Pattern.lineStart
      Pattern.many (.noneOf "\n")
      Pattern.wordBoundary
      callPattern) := rfl
  have begins (call : Call) (rest : List Char) : isWord (call.spelled ++ rest).head? = true := rfl
  have wordBefore (front : List Char) (starts : ∀ c, before.getLast? = some c → c = '\n') :
      isWord (before ++ front).getLast? = isWord front.getLast? := by
    rw [List.getLast?_append]
    cases front.getLast? with
    | some c => rfl
    | none =>
      cases last : before.getLast? with
      | none => rfl
      | some c =>
        obtain rfl := starts c last
        rfl
  simp only [unfolded, mem_bind, mem_lineStart]
  constructor
  · rintro ⟨_, _, ⟨starts, rfl⟩, _, _, first, _, _, edge, called⟩
    obtain ⟨front, _, rfl, inside, rfl⟩ := mem_front.mp first
    obtain ⟨boundary, rfl⟩ := mem_wordBoundary.mp edge
    obtain ⟨call, rest, rfl, last, rfl⟩ := mem_call.mp called
    rw [begins, wordBefore front starts, ne_eq, Bool.not_eq_true] at boundary
    exact ⟨starts, front, call, rest, by simp, inside, boundary, last, by simp⟩
  · rintro ⟨starts, front, call, rest, rfl, inside, boundary, last, rfl⟩
    have called : (value, between (before ++ front ++ call.spelled) rest) ∈
        callPattern (between (before ++ front) (call.spelled ++ rest)) :=
      mem_call.mpr ⟨call, rest, rfl, last, rfl⟩
    refine ⟨(), _, ⟨starts, rfl⟩, (), _, mem_front.mpr ⟨front, call.spelled ++ rest, by simp,
      inside, rfl⟩, (), _, mem_wordBoundary.mpr ⟨?_, rfl⟩, by simpa using called⟩
    rw [begins, wordBefore front starts, boundary]
    decide

end Parts

/-- Whether a line ends in a call that no word runs into. -/
def EndsInCall (line : List Char) : Prop :=
  ∃ (front : List Char) (call : Call), line = front ++ call.spelled ∧ '\n' ∉ front ∧
    isWord front.getLast? = false

private theorem Gap.newline_not_mem {gap : List Char} (valid : Gap gap) : '\n' ∉ gap :=
  fun member => by simpa using valid _ member

theorem Closing.mem_spelled (closing : Closing) :
    ∀ c ∈ closing.spelled, c ∈ [' ', '\t', ';', '\r', '\n'] := by
  intro c member
  have inGap {gap : List Char} (valid : Gap gap) (inside : c ∈ gap) :
      c ∈ [' ', '\t', ';', '\r', '\n'] := by
    rcases valid c inside with rfl | rfl <;> decide
  simp only [Closing.spelled, Closing.ending, List.mem_append] at member
  rcases member with gap | terminator | carriage | ended
  · exact inGap closing.gapValid gap
  · cases shape : closing.terminator with
    | none => simp [shape] at terminator
    | some behind =>
      rw [shape] at terminator
      rcases List.mem_cons.mp terminator with rfl | inside
      · decide
      · exact inGap (closing.terminatorValid behind shape) inside
  · split at carriage <;> simp_all
  · split at ended <;> simp_all

/-- Only the last character of a call's line is a line end, if any is. -/
theorem Call.exists_spelled_eq (call : Call) : ∃ body, body ≠ [] ∧ '\n' ∉ body ∧
    call.spelled = body ++ if call.closing.lineEnd then ['\n'] else [] := by
  obtain ⟨inner, quote, name, outer, closing, innerValid, nameValid, outerValid⟩ := call
  obtain ⟨gap, terminator, carriageReturn, lineEnd, gapValid, terminatorValid⟩ := closing
  have behind : '\n' ∉ terminator.elim [] (';' :: ·) := by
    cases terminator with
    | none => simp
    | some behind => simpa using (terminatorValid behind rfl).newline_not_mem
  have quoteChar : '\n' ≠ quote.character := by cases quote <;> decide
  refine ⟨Call.opening ++ inner ++ quote.character :: name ++ quote.character :: outer ++
    ')' :: (gap ++ (terminator.elim [] (';' :: ·) ++ if carriageReturn then ['\r'] else [])),
    by simp, ?_, by simp [Call.spelled, Closing.spelled, Closing.ending]⟩
  have carriage : '\n' ∉ if carriageReturn then ['\r'] else [] := by
    cases carriageReturn <;> decide
  simp only [List.mem_append, List.mem_cons, not_or]
  exact ⟨⟨⟨⟨by decide, innerValid.newline_not_mem⟩, quoteChar, nameValid.2⟩, quoteChar,
    outerValid.newline_not_mem⟩, by decide, gapValid.newline_not_mem, behind, carriage⟩

theorem Call.newline_mem_spelled (call : Call) :
    '\n' ∈ call.spelled ↔ call.closing.lineEnd = true := by
  obtain ⟨body, -, free, shape⟩ := call.exists_spelled_eq
  rw [shape]
  cases call.closing.lineEnd <;> simp [free]

/-- What ends in a call is one line, closed or last. -/
theorem Call.isLine (call : Call) {front : List Char} (inside : '\n' ∉ front) :
    IsLine '\n' (front ++ call.spelled) := by
  obtain ⟨body, nonempty, free, shape⟩ := call.exists_spelled_eq
  rw [shape]
  refine ⟨by simp [nonempty], fun member => ?_⟩
  cases ended : call.closing.lineEnd with
  | true => simp [ended, ← List.append_assoc, inside, free] at member
  | false =>
    rw [ended, if_neg Bool.false_ne_true, List.append_nil] at member
    have := List.dropLast_subset _ member
    simp [inside, free] at this

section Search

variable {before line rest : List Char} {cursor : Cursor} {value : Unit}

/-- At the beginning of a line the pattern matches that line or nothing. -/
theorem mem_pattern_of_line (starts : ∀ c, before.getLast? = some c → c = '\n')
    (one : IsLine '\n' line) (closed : '\n' ∉ line → rest = []) :
    (value, cursor) ∈ RequireLine.pattern (between before (line ++ rest)) ↔
      EndsInCall line ∧ cursor = between (before ++ line) rest := by
  rw [mem_pattern]
  constructor
  · rintro ⟨-, front, call, behind, split, inside, boundary, last, rfl⟩
    have ended : '\n' ∉ front ++ call.spelled → behind = [] := fun free => last <| by
      rw [← Bool.not_eq_true, ← call.newline_mem_spelled]
      exact fun member => free (List.mem_append_right _ member)
    have first := congrArg (linesBy '\n') split
    rw [linesBy_append_line one closed, linesBy_append_line (call.isLine inside) ended] at first
    obtain ⟨rfl, -⟩ := List.cons.inj first
    obtain rfl := List.append_cancel_left split
    exact ⟨⟨front, call, rfl, inside, boundary⟩, rfl⟩
  · rintro ⟨⟨front, call, rfl, inside, boundary⟩, rfl⟩
    refine ⟨starts, front, call, rest, rfl, inside, boundary, fun free => closed ?_, rfl⟩
    rw [← Bool.not_eq_true, ← call.newline_mem_spelled] at free
    simp [inside, free]

private theorem matchAt?_line (starts : ∀ c, before.getLast? = some c → c = '\n')
    (one : IsLine '\n' line) (closed : '\n' ∉ line → rest = []) (ends : EndsInCall line) :
    matchAt? RequireLine.pattern (between before (line ++ rest)) =
      some ⟨⟨(Text.encode before).length, (Text.encode (before ++ line)).length⟩, ()⟩ := by
  have matched : ((), between (before ++ line) rest) ∈
      RequireLine.pattern (between before (line ++ rest)) :=
    (mem_pattern_of_line starts one closed).mpr ⟨ends, rfl⟩
  exact (matchAt?_eq_some one.1 matched fun _ _ member =>
    ((mem_pattern_of_line starts one closed).mp member).2).choose_spec

private theorem searchBehind_inside (one : '\n' ∉ line.dropLast)
    (fails : ∀ value cursor,
      (value, cursor) ∉ RequireLine.pattern (between before (line ++ rest))) :
    searchBehind RequireLine.pattern before (line ++ rest) =
      searchBehind RequireLine.pattern (before ++ line) rest := by
  induction line generalizing before with
  | nil => simp
  | cons c line ih =>
    have next : searchBehind RequireLine.pattern before (c :: line ++ rest) =
        searchBehind RequireLine.pattern (before ++ [c]) (line ++ rest) :=
      searchBehind_of_none (matchAt?_eq_none fails)
    rw [next]
    cases line with
    | nil => rfl
    | cons d line =>
      rw [List.dropLast_cons_cons] at one
      obtain ⟨other, inside⟩ := not_or.mp (mt List.mem_cons.mpr one)
      have fails (value : Unit) (cursor : Cursor) : (value, cursor) ∉
          RequireLine.pattern (between (before ++ [c]) (d :: line ++ rest)) := fun member => by
        obtain ⟨starts, -⟩ := mem_pattern.mp member
        exact other (starts c List.getLast?_concat).symm
      rw [ih inside fails, List.append_assoc]
      rfl

end Search

/-- Whether a line matches the pattern of a require line. -/
def isRequireLine (line : Text) : Bool := !(RequireLine.pattern (Cursor.ofText line)).isEmpty

/-- A line is a require line exactly if it ends in a call. -/
theorem isRequireLine_encode {line : List Char} (one : IsLine '\n' line) :
    isRequireLine (Text.encode line) = true ↔ EndsInCall line := by
  have nothingBefore : ∀ c, ([] : List Char).getLast? = some c → c = '\n' := by simp
  have nothingBehind : '\n' ∉ line → ([] : List Char) = [] := fun _ => rfl
  have matched (value : Unit) (cursor : Cursor) :
      (value, cursor) ∈ RequireLine.pattern (Cursor.ofText (Text.encode line)) ↔
        EndsInCall line ∧ cursor = between line [] := by
    simpa [ofText_encode] using mem_pattern_of_line nothingBefore one nothingBehind
  rw [isRequireLine, Bool.not_eq_true', List.isEmpty_eq_false_iff_exists_mem]
  constructor
  · rintro ⟨⟨value, cursor⟩, member⟩
    exact ((matched value cursor).mp member).1
  · intro ends
    exact ⟨((), _), (matched () _).mpr ⟨ends, rfl⟩⟩

/-- A line of a mask is a require line if it ends in a call in front of which no word stands. -/
theorem isRequireLine_iff {script : String} {line : Text}
    (member : line ∈ (Text.mask script).lines) : isRequireLine line = true ↔
      ∃ (front : List Char) (call : Call), line = Text.encode (front ++ call.spelled) ∧
        isWord front.getLast? = false := by
  obtain ⟨characters, masked⟩ := (Text.isString_ofString script).aligned.maskIsString
  rw [masked, Text.lines_encode, List.mem_map] at member
  obtain ⟨line, inside, rfl⟩ := member
  have one := isLine_of_mem inside
  rw [isRequireLine_encode one]
  constructor
  · rintro ⟨front, call, rfl, -, boundary⟩
    exact ⟨front, call, rfl, boundary⟩
  · rintro ⟨front, call, same, boundary⟩
    obtain rfl := Text.encode_injective same
    refine ⟨front, call, rfl, fun inside => one.2 ?_, boundary⟩
    obtain ⟨body, nonempty, -, spelled⟩ := call.exists_spelled_eq
    have someCall : call.spelled ≠ [] := by simp [spelled, nonempty]
    rw [List.dropLast_append_of_ne_nil someCall]
    exact List.mem_append_left _ inside

/-- Where the require lines stand among some lines, the first of which begins at `start`. -/
def spansFrom (start : Nat) : List Text → List Span
  | [] => []
  | line :: lines =>
    if isRequireLine line then ⟨start, start + line.length⟩ :: spansFrom (start + line.length) lines
    else spansFrom (start + line.length) lines

private theorem searchBehind_lines {before : List Char}
    (starts : ∀ c, before.getLast? = some c → c = '\n') (after : List Char) :
    (searchBehind RequireLine.pattern before after).map (·.span) =
      spansFrom (Text.encode before).length ((linesBy '\n' after).map Text.encode) := by
  have step {before line rest : List Char}
      (starts : ∀ c, before.getLast? = some c → c = '\n')
      (one : IsLine '\n' line) (closed : '\n' ∉ line → rest = [])
      (ih : (searchBehind RequireLine.pattern (before ++ line) rest).map (·.span) =
        spansFrom (Text.encode (before ++ line)).length ((linesBy '\n' rest).map Text.encode)) :
      (searchBehind RequireLine.pattern before (line ++ rest)).map (·.span) =
        spansFrom (Text.encode before).length ((linesBy '\n' (line ++ rest)).map Text.encode) := by
    have length : (Text.encode (before ++ line)).length =
        (Text.encode before).length + (Text.encode line).length := by simp
    rw [length] at ih
    rw [linesBy_append_line one closed, List.map_cons, spansFrom, ← ih]
    by_cases ends : EndsInCall line
    · rw [if_pos ((isRequireLine_encode one).mpr ends),
        searchBehind_of_some (matchAt?_line starts one closed ends) one.1, List.map_cons, length]
    · rw [if_neg (mt (isRequireLine_encode one).mp ends), searchBehind_inside one.2]
      exact fun _ _ member => ends ((mem_pattern_of_line starts one closed).mp member).1
  induction after using linesBy_induction '\n' generalizing before with
  | nil => rfl
  | last line nonempty free =>
    have one : IsLine '\n' line := ⟨nonempty, fun inside => free (List.dropLast_subset _ inside)⟩
    have closed : '\n' ∉ line → ([] : List Char) = [] := fun _ => rfl
    simpa using step starts one closed rfl
  | line front rest free ih =>
    have one : IsLine '\n' (front ++ ['\n']) := ⟨by simp, by simpa using free⟩
    simpa using step starts one (by simp) (ih (by simp))

private theorem contains_of_endsInCall {line : List Char} (ends : EndsInCall line) :
    Text.ofString "require(" <:+: Text.encode line := by
  obtain ⟨front, call, rfl, -, -⟩ := ends
  have opening : ("require(" : Text) = Text.encode Call.opening := Text.ofString_eq _
  rw [opening, Call.spelled]
  exact ⟨Text.encode front, Text.encode (call.inner ++ call.quote.character :: call.name ++
    call.quote.character :: call.outer ++ ')' :: call.closing.spelled), by simp⟩

private theorem spansFrom_eq_nil {lines : List Text}
    (absent : ∀ line ∈ lines, isRequireLine line = false) (start : Nat) :
    spansFrom start lines = [] := by
  induction lines generalizing start with
  | nil => rfl
  | cons line lines ih =>
    obtain ⟨first, others⟩ := List.forall_mem_cons.mp absent
    rw [spansFrom, first, if_neg Bool.false_ne_true, ih others]

/-- The search for require lines settles on the lines that match by themselves. -/
theorem map_span_search (script : String) : (search pattern (Text.mask script)).map (·.span) =
    spansFrom 0 (Text.mask script).lines := by
  obtain ⟨characters, masked⟩ := (Text.isString_ofString script).aligned.maskIsString
  have starts : ∀ c, ([] : List Char).getLast? = some c → c = '\n' := by simp
  have searched := searchBehind_lines starts characters
  rwa [← search_encode, ← masked, ← Text.lines_encode, ← masked] at searched

/-- The spans of require lines are found line by line, in the lines of the mask. -/
theorem spans_eq (script : String) : spans script = spansFrom 0 (Text.mask script).lines := by
  rw [spans]
  split
  · exact map_span_search script
  · next absent =>
    refine (spansFrom_eq_nil (fun line member => ?_) 0).symm
    rw [← Bool.not_eq_true]
    intro removed
    have inside : line <:+: Text.mask script := by
      rw [← flatten_linesBy Byte.newline (Text.mask script)]
      exact List.infix_of_mem_flatten member
    obtain ⟨characters, masked⟩ := (Text.isString_ofString script).aligned.maskIsString
    rw [masked, Text.lines_encode, List.mem_map] at member
    obtain ⟨characters, member, rfl⟩ := member
    have ends := (isRequireLine_encode (isLine_of_mem member)).mp removed
    refine absent (Text.contains_iff.mpr ?_)
    rw [Text.mask_eq_scan] at inside
    have shows : (Text.ofString "require(").all (fun b => b != Byte.space && b != Byte.newline) =
        true := by decide +kernel
    have visible (b : UInt8) (member : b ∈ Text.ofString "require(") :
        b ≠ Byte.space ∧ b ≠ Byte.newline := by
      simpa using List.all_eq_true.mp shows b member
    exact Scanner.infix_of_infix_scan _ _ visible ((contains_of_endsInCall ends).trans inside)

private theorem replaceFrom_spansFrom (lines : List ScriptLine) (copied pending : Text) :
    Text.replaceFrom (copied ++ pending ++ lines.flatMap ScriptLine.text) copied.length
        ((spansFrom (copied.length + pending.length) (lines.map ScriptLine.mask)).map
          fun span => (span, [])) =
      pending ++ (lines.filter (!isRequireLine ·.mask)).flatMap ScriptLine.text := by
  induction lines generalizing copied pending with
  | nil => simpa [spansFrom] using Text.replaceFrom_nil rfl
  | cons line lines ih =>
    have length : line.mask.length = line.text.length := Scanner.scan_length ..
    rw [List.map_cons, spansFrom, List.flatMap_cons, length]
    cases removed : isRequireLine line.mask with
    | true =>
      rw [if_pos rfl, List.map_cons, Text.replaceFrom_cons rfl _ _ rfl]
      have := ih (copied ++ pending ++ line.text) []
      simpa [removed, Nat.add_assoc] using this
    | false =>
      have := ih copied (pending ++ line.text)
      simpa [removed, Nat.add_assoc] using this

/-- The lines of a script that are no require lines. -/
def keptLines (script : Text) : List ScriptLine :=
  (ScriptLine.all script).filter (!isRequireLine ·.mask)

/-- Stripping a script keeps the lines that are no require lines. -/
theorem strip_eq (script : String) :
    strip script = (keptLines script).flatMap ScriptLine.text := by
  have replaced := replaceFrom_spansFrom (ScriptLine.all script) [] []
  rw [ScriptLine.map_mask_all, List.nil_append, List.nil_append, List.nil_append,
    ScriptLine.flatMap_text_all] at replaced
  rw [strip, spans_eq, Text.replace]
  exact replaced

end RequireLine

end BareComponent
