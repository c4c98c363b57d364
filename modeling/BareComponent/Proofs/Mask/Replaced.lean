import BareComponent.Proofs.Mask.Front
import BareComponent.Proofs.Mask.Literals
import BareComponent.Proofs.Text.Replace

/-! # The mask of a text that is replaced

A replacement leaves the scanner alike if it ends in the state in which the stretch ended that it
takes the place of. Where all replacements in front of a place do, the scanner comes to that place
as it did before, and what no edit touches there is masked as it was. The scanner looks one byte
ahead only behind the first byte of a delimiter, so it does not see where a replacement begins or
ends beside other bytes.
-/

namespace BareComponent

open Text

namespace Scanner

/-- Whether a byte is read without a look at the next one. -/
def Blind (b : UInt8) : Prop := b ≠ Byte.slash ∧ b ≠ Byte.asterisk ∧ b ≠ Byte.dollar

instance (b : UInt8) : Decidable (Blind b) := inferInstanceAs (Decidable (_ ∧ _))

/-- A step over a byte that begins no pair does not look at the byte behind it. -/
theorem step_of_blind {b : UInt8} (blind : Blind b) (state : State) (next : Option UInt8) :
    step state b next = step state b none := by
  obtain ⟨slash, asterisk, dollar⟩ := blind
  rcases state with ⟨mode, claimed, braces⟩
  cases mode <;> simp [step, codeStep, slash, asterisk, dollar]

/-- What follows a text does not matter to the state behind it if it ends in such a byte. -/
theorem after_of_blind {text : Text} (blind : ∀ b ∈ text.getLast?, Blind b) (state : State)
    (next : Option UInt8) : after state next text = after state none text := by
  rcases List.eq_nil_or_concat' text with rfl | ⟨front, b, rfl⟩
  · rfl
  · have last : Blind b := blind b List.getLast?_concat
    simp only [after_append, after, List.head?_cons, Option.some_or, List.head?_nil,
      Option.none_or, step_of_blind last _ next]

/-- The state at a place is the one behind what stands between an earlier place and it. -/
theorem after_slice (text : Text) {first place : Nat} (ordered : first ≤ place) :
    after (stateAt text first) text[place]? (text.slice ⟨first, place⟩) = stateAt text place := by
  have split : text.take place = text.take first ++ text.slice ⟨first, place⟩ := by
    have parts := List.take_append_drop first (text.take place)
    rwa [List.take_take, Nat.min_eq_left ordered, eq_comm] at parts
  have next : (text.slice ⟨first, place⟩).head?.or text[place]? = text[first]? := by
    rw [slice, List.head?_drop]
    rcases Nat.eq_or_lt_of_le ordered with rfl | later
    · rw [List.getElem?_take, if_neg (Nat.lt_irrefl _), Option.none_or]
    · rw [List.getElem?_take, if_pos later]
      cases reads : text[first]? with
      | some b => rfl
      | none =>
        rw [Option.none_or]
        exact List.getElem?_eq_none ((List.getElem?_eq_none_iff.mp reads).trans later.le)
  rw [stateAt, stateAt, split, after_append, next]

/-- Whether a replacement leaves the scanner as what it takes the place of did. -/
def LeavesAlike (text : Text) (edit : Span × Text) : Prop :=
  after (stateAt text edit.1.start) none edit.2 = stateAt text edit.1.stop

instance (text : Text) (edit : Span × Text) : Decidable (LeavesAlike text edit) :=
  inferInstanceAs (Decidable (_ = _))

/-- Whether the scanner sees nothing of where a replacement begins and where it ends. -/
structure Unnoticed (text : Text) (edit : Span × Text) : Prop where
  begins : ∀ b ∈ (text.take edit.1.start).getLast?, Blind b
  ends : ∀ b ∈ edit.2.getLast?, Blind b

section Replaced

variable {text : Text} {edits : List (Span × Text)}

/-- The scanner comes through the edits of a text from any place in front of them. -/
theorem after_replaceFrom {first place : Nat} (rising : edits.Pairwise (·.1.stop ≤ ·.1.start))
    (inside : ∀ edit ∈ edits, first ≤ edit.1.start ∧ edit.1.start ≤ edit.1.stop ∧
      edit.1.stop ≤ place)
    (ordered : first ≤ place) (unnoticed : ∀ edit ∈ edits, Unnoticed text edit)
    (alike : ∀ edit ∈ edits, LeavesAlike text edit) :
    after (stateAt text first) text[place]? (replaceFrom (text.take place) first edits) =
      stateAt text place := by
  induction edits generalizing first with
  | nil => exact after_slice text ordered
  | cons edit edits ih =>
    obtain ⟨span, replacement⟩ := edit
    obtain ⟨apart, rising⟩ := List.pairwise_cons.mp rising
    obtain ⟨⟨starts, taken, stops⟩, inside⟩ := List.forall_mem_cons.mp inside
    obtain ⟨seam, unnoticed⟩ := List.forall_mem_cons.mp unnoticed
    obtain ⟨leaves, alike⟩ := List.forall_mem_cons.mp alike
    have copied : slice (text.take place) ⟨first, span.start⟩ = text.slice ⟨first, span.start⟩ := by
      rw [slice, slice, List.take_take, Nat.min_eq_left (taken.trans stops)]
    have blind : ∀ b ∈ (text.slice ⟨first, span.start⟩).getLast?, Blind b := by
      intro b last
      refine seam.begins b ?_
      rw [slice, List.getLast?_drop] at last
      split at last
      · contradiction
      · exact last
    have comes (next : Option UInt8) :
        after (stateAt text first) next (text.slice ⟨first, span.start⟩) =
          stateAt text span.start := by
      rw [after_of_blind blind, ← after_of_blind blind _ text[span.start]?]
      exact after_slice text starts
    have rest := ih rising (fun edit member => ⟨apart edit member, (inside edit member).2⟩) stops
      unnoticed alike
    rw [replaceFrom, copied, after_append, after_append, comes, after_of_blind seam.ends]
    exact leaves ▸ rest

/-- A piece that no edit touches is come to in the same state as before if the edits in front of it
leave the scanner alike. -/
theorem stateAt_replace (rising : edits.Pairwise (·.1.stop ≤ ·.1.start))
    (ordered : ∀ edit ∈ edits, edit.1.start ≤ edit.1.stop) {front piece rest : Text}
    (spelled : text = front ++ (piece ++ rest)) (nonempty : piece ≠ [])
    (apart : ∀ edit ∈ edits, (front ++ piece).length ≤ edit.1.start ∨
      edit.1.stop ≤ front.length)
    (unnoticed : ∀ edit ∈ editsInFront edits front.length, Unnoticed text edit)
    (alike : ∀ edit ∈ editsInFront edits front.length, LeavesAlike text edit) :
    stateAt (replace text edits) (placeAfter text edits front.length) =
      stateAt text front.length := by
  obtain ⟨b, others, rfl⟩ := List.exists_cons_of_ne_nil nonempty
  obtain ⟨behind, -, split⟩ := replace_around rising ordered rest apart
  have inFront : text.take front.length = front := by rw [spelled, List.take_left]
  have here : text[front.length]? = some b := by
    rw [spelled, List.getElem?_append_right le_rfl, Nat.sub_self, List.cons_append,
      List.getElem?_cons_zero]
  have place : placeAfter text edits front.length =
      (replace front (editsInFront edits front.length)).length := by rw [placeAfter, inFront]
  have there : (replace text edits)[(replace front (editsInFront edits front.length)).length]? =
      some b := by
    rw [spelled, split, List.getElem?_append_right le_rfl, Nat.sub_self, List.cons_append,
      List.getElem?_cons_zero]
  have known : (editsInFront edits front.length).Sublist edits := List.takeWhile_sublist _
  have comes := @after_replaceFrom text _ 0 front.length (rising.sublist known)
    (fun edit member => ⟨Nat.zero_le _, ordered edit (known.mem member), by
      simpa using List.mem_takeWhile_imp member⟩) (Nat.zero_le _) unnoticed alike
  rw [inFront, here] at comes
  have copied : (replace text edits).take
      (replace front (editsInFront edits front.length)).length =
        replace front (editsInFront edits front.length) := by rw [spelled, split, List.take_left]
  rw [place, stateAt, there, copied, ← comes]
  rfl

/-- Where a text is cut, its mask is cut into what the scanner shows of the parts. -/
theorem mask_append (front piece rest : Text) :
    (front ++ (piece ++ rest)).mask = scan start (piece ++ rest).head? front ++
      (scan (stateAt (front ++ (piece ++ rest)) front.length) rest.head? piece ++
        scan (after (stateAt (front ++ (piece ++ rest)) front.length) rest.head? piece) none
          rest) := by
  have next : (front ++ (piece ++ rest))[front.length]? = (piece ++ rest).head? := by
    rw [List.getElem?_append_right le_rfl, Nat.sub_self, List.head?_eq_getElem?]
  rw [mask_eq_scan, scan_append, scan_append, stateAt, List.take_left, next]
  simp only [Option.or_none]

end Replaced

section Settling

variable {braces : List Nat}

/-- Whether a scan that starts in code, inside some interpolations, shows a text in this way and
ends where it started, whatever follows. -/
def SettlesIn (braces : List Nat) (text masked : Text) : Prop :=
  ∀ next, scan ⟨.code, false, braces⟩ next text = masked ∧
    after ⟨.code, false, braces⟩ next text = ⟨.code, false, braces⟩

theorem SettlesIn.nil : SettlesIn braces [] [] := fun _ => ⟨rfl, rfl⟩

/-- Texts that settle between braces, one behind the other, settle there. -/
theorem SettlesIn.append {first second masked others : Text}
    (settles : SettlesIn braces first masked) (settlesSecond : SettlesIn braces second others) :
    SettlesIn braces (first ++ second) (masked ++ others) := fun next => by
  obtain ⟨scanned, ended⟩ := settles (second.head?.or next)
  obtain ⟨othersScanned, othersEnded⟩ := settlesSecond next
  rw [scan_append, after_append, scanned, ended, othersScanned, othersEnded]
  exact ⟨rfl, rfl⟩

/-- Bytes of code that begin no literal and are no braces. -/
def Plain (b : UInt8) : Prop :=
  b ∉ [Byte.singleQuote, Byte.doubleQuote, Byte.backtick, Byte.slash, Byte.openBrace,
    Byte.closeBrace]

instance (b : UInt8) : Decidable (Plain b) := inferInstanceAs (Decidable (_ ∉ _))

private theorem settlesIn_byte {b : UInt8} (plain : Plain b) : SettlesIn braces [b] [b] := by
  simp only [Plain, List.mem_cons, List.not_mem_nil, or_false, not_or] at plain
  obtain ⟨single, double, tick, slash, opening, closing⟩ := plain
  intro next
  have stays := codeStep_plain braces next single double tick slash opening closing
  have visible : shows ⟨.code, false, braces⟩ b next = true := by
    simp [shows, showsCode, slash, closing]
  exact ⟨congrArg (· :: []) (if_pos visible), stays⟩

/-- Code without quotes, slashes and braces is shown as it is. -/
theorem settlesIn_plain {text : Text} (plain : ∀ b ∈ text, Plain b) :
    SettlesIn braces text text := by
  induction text with
  | nil => exact .nil
  | cons b text ih =>
    obtain ⟨first, others⟩ := List.forall_mem_cons.mp plain
    exact (settlesIn_byte first).append (ih others)

/-- Such code in braces is shown with them. -/
theorem settlesIn_braced {text : Text} (plain : ∀ b ∈ text, Plain b) :
    SettlesIn braces (Byte.openBrace :: text ++ [Byte.closeBrace])
      (Byte.openBrace :: text ++ [Byte.closeBrace]) := by
  intro next
  cases braces with
  | nil =>
    have opens (next : Option UInt8) : step ⟨.code, false, []⟩ Byte.openBrace next =
        ⟨.code, false, []⟩ := rfl
    obtain ⟨scanned, ended⟩ := @settlesIn_plain [] _ plain (some Byte.closeBrace)
    rw [List.cons_append, scan, after, opens, scan_append, after_append]
    simp only [List.head?_cons, Option.some_or, scanned, ended]
    exact ⟨rfl, rfl⟩
  | cons count outer =>
    have opens (next : Option UInt8) : step ⟨.code, false, count :: outer⟩ Byte.openBrace next =
        ⟨.code, false, (count + 1) :: outer⟩ := by cases count <;> rfl
    have opening (next : Option UInt8) :
        shown ⟨.code, false, count :: outer⟩ Byte.openBrace next = Byte.openBrace := rfl
    obtain ⟨scanned, ended⟩ := @settlesIn_plain ((count + 1) :: outer) _ plain
      (some Byte.closeBrace)
    rw [List.cons_append, scan, after, opens, opening, scan_append, after_append]
    simp only [List.head?_cons, Option.some_or, scanned, ended]
    exact ⟨rfl, rfl⟩

/-- Whether a backslash in a text escapes what stands behind the text. -/
def escapesNext (text : Text) : Bool :=
  text.foldl (fun escaped b => !escaped && b == Byte.backslash) false

private theorem scan_quoted {quote : Quote} {text : Text}
    (inside : ∀ b ∈ text, b ≠ quote.byte ∧ b ≠ Byte.newline) (escaped : Bool)
    (next : Option UInt8) :
    scan ⟨.quoted quote, escaped, braces⟩ next text = List.replicate text.length Byte.space ∧
      after ⟨.quoted quote, escaped, braces⟩ next text = ⟨.quoted quote,
        text.foldl (fun escaped b => !escaped && b == Byte.backslash) escaped, braces⟩ := by
  induction text generalizing escaped with
  | nil => exact ⟨rfl, rfl⟩
  | cons b text ih =>
    obtain ⟨⟨other, lineEnd⟩, others⟩ := List.forall_mem_cons.mp inside
    have stepped (next : Option UInt8) : step ⟨.quoted quote, escaped, braces⟩ b next =
        ⟨.quoted quote, !escaped && b == Byte.backslash, braces⟩ := by
      cases escaped with
      | true => rfl
      | false => by_cases slash : b = Byte.backslash <;> simp [step, slash, other, lineEnd]
    have hidden (next : Option UInt8) : shown ⟨.quoted quote, escaped, braces⟩ b next =
        Byte.space := by
      simp [shown, shows, Byte.blanked, other, lineEnd]
    obtain ⟨scanned, ended⟩ := ih others (!escaped && b == Byte.backslash)
    rw [scan, after, stepped, hidden, scanned, ended]
    exact ⟨rfl, rfl⟩

/-- A string on one line shows its quotes, unless its last backslash escapes the closing one. -/
theorem settlesIn_quoted {quote : Quote} {text : Text}
    (inside : ∀ b ∈ text, b ≠ quote.byte ∧ b ≠ Byte.newline) (closes : escapesNext text = false) :
    SettlesIn braces (quote.byte :: text ++ [quote.byte])
      (quote.byte :: List.replicate text.length Byte.space ++ [quote.byte]) := by
  intro next
  have opens (next : Option UInt8) : step ⟨.code, false, braces⟩ quote.byte next =
      ⟨.quoted quote, false, braces⟩ := by
    cases quote <;> simp +decide [step, codeStep]
  have opening (next : Option UInt8) :
      shown ⟨.code, false, braces⟩ quote.byte next = quote.byte := by
    cases quote <;> simp +decide [shown, shows, showsCode, Quote.byte]
  have noEscape : quote.byte ≠ Byte.backslash := by cases quote <;> decide
  obtain ⟨scanned, ended⟩ := @scan_quoted braces quote text inside false (some quote.byte)
  rw [escapesNext] at closes
  rw [closes] at ended
  rw [List.cons_append, scan, after, opens, opening, scan_append, after_append]
  simp only [List.head?_cons, Option.some_or, scanned, ended, scan, after]
  refine ⟨?_, ?_⟩
  · simp [shown, shows]
  · simp [step, noEscape]

/-- A replacement that settles leaves the scanner alike if the stretch begins and ends in one and
the same code. -/
theorem SettlesIn.leavesAlike {text replacement masked : Text} {span : Span}
    (settles : SettlesIn braces replacement masked)
    (begins : stateAt text span.start = ⟨.code, false, braces⟩)
    (ends : stateAt text span.stop = ⟨.code, false, braces⟩) :
    LeavesAlike text (span, replacement) := by
  rw [LeavesAlike, begins, ends, (settles none).2]

end Settling

end Scanner

end BareComponent
