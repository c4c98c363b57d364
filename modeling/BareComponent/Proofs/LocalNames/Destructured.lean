import BareComponent.Proofs.Checked.LocalNames
import BareComponent.Proofs.Pattern.Frame
import BareComponent.Proofs.Text.Nesting
import BareComponent.Proofs.Text.Replace

/-! # Destructured parameters in a larger text

The stretch in front of a function ends with the stretch of the same function in the text alone. A
destructuring pattern has one opening brace and reaches to the function, so a longer stretch holds
no other one that begins earlier.
-/

namespace BareComponent

open Text Pattern Cursor

namespace Text

theorem le_characterBoundary {text : Text} {position : Nat} (inside : position ≤ text.length) :
    position ≤ text.characterBoundary position := by
  rw [characterBoundary]
  omega

end Text

namespace LocalNames

private theorem openBrace_not_mem_type {before after : List Char} {value : Unit} {next : Cursor}
    (member : (value, next) ∈ (do
      Pattern.literal ":"
      Pattern.run <| .noneOf
        [Byte.openParen, Byte.closeParen, Byte.openBrace, Byte.closeBrace, Byte.equals] :
        Pattern Unit) (between before after)) :
    ∃ passed rest, after = passed ++ rest ∧ '{' ∉ passed ∧
      next = between (before ++ passed) rest := by
  obtain ⟨_, _, colon, type⟩ := mem_bind.mp member
  obtain ⟨after, rfl, rfl⟩ := exists_of_mem_literal (c := ':') rfl colon
  obtain ⟨passed, rest, rfl, outside, -, rfl⟩ := mem_run.mp type
  refine ⟨':' :: passed, rest, rfl, ?_, by simp⟩
  rintro (_ | ⟨_, inside⟩)
  exact CharacterClass.not_mem_of_noneOf ['(', ')', '{', '}', '='] rfl (by simp)
    (outside '{' inside) (by decide)

/-- What a destructuring pattern passes has one opening brace, with a parenthesis and blanks in
front of it, and ends with the text. What stands between the braces is read. -/
theorem shape_of_mem_parameterPattern {before after : List Char} {value : Span} {next : Cursor}
    (member : (value, next) ∈ parameterPattern (between before after)) :
    ∃ blanks inside tail, after = '(' :: (blanks ++ '{' :: (inside ++ '}' :: tail)) ∧
      Blank blanks ∧ '{' ∉ inside ++ '}' :: tail ∧
      value = ⟨(encode (before ++ '(' :: blanks ++ ['{'])).length,
        (encode (before ++ '(' :: blanks ++ '{' :: inside)).length⟩ := by
  obtain ⟨_, _, paren, member⟩ := mem_bind.mp member
  obtain ⟨after, rfl, rfl⟩ := exists_of_mem_literal (c := '(') rfl paren
  obtain ⟨_, _, blanksRead, member⟩ := mem_bind.mp member
  obtain ⟨blanks, after, rfl, blank, -, rfl⟩ := mem_run.mp blanksRead
  obtain ⟨_, _, brace, member⟩ := mem_bind.mp member
  obtain ⟨after, rfl, rfl⟩ := exists_of_mem_literal (c := '{') rfl brace
  obtain ⟨_, _, insideRead, member⟩ := mem_bind.mp member
  obtain ⟨runRead, rfl⟩ := mem_spanned.mp insideRead
  obtain ⟨inside, after, rfl, outside, -, rfl⟩ := mem_run.mp runRead
  obtain ⟨_, _, close, member⟩ := mem_bind.mp member
  obtain ⟨after, rfl, rfl⟩ := exists_of_mem_literal (c := '}') rfl close
  obtain ⟨_, _, blanksRead, member⟩ := mem_bind.mp member
  obtain ⟨moreBlanks, after, rfl, moreBlank, -, rfl⟩ := mem_run.mp blanksRead
  obtain ⟨_, cursor, typeRead, member⟩ := mem_bind.mp member
  obtain ⟨type, after, rfl, typeOpen, rfl⟩ : ∃ passed rest, after = passed ++ rest ∧
      '{' ∉ passed ∧ cursor = between _ rest := by
    rcases mem_optional.mp typeRead with ⟨read, -, here⟩ | ⟨-, rfl⟩
    · exact openBrace_not_mem_type here
    · exact ⟨[], after, rfl, List.not_mem_nil, by rw [List.append_nil]⟩
  obtain ⟨_, _, paren, member⟩ := mem_bind.mp member
  obtain ⟨after, rfl, rfl⟩ := exists_of_mem_literal (c := ')') rfl paren
  obtain ⟨_, _, blanksRead, member⟩ := mem_bind.mp member
  obtain ⟨lastBlanks, after, rfl, lastBlank, -, rfl⟩ := mem_run.mp blanksRead
  obtain ⟨_, _, ends, member⟩ := mem_bind.mp member
  obtain ⟨rfl, rfl⟩ := mem_textEnd.mp ends
  obtain ⟨rfl, -⟩ := mem_pure.mp member
  have dark {characters : List Char} (blank : Blank characters) : '{' ∉ characters :=
    fun member => absurd (blank '{' member) (by decide)
  have insideOpen : '{' ∉ inside := fun member =>
    CharacterClass.not_mem_of_noneOf ['{', '}'] rfl (by simp) (outside '{' member) (by decide)
  refine ⟨blanks, inside, _, rfl, blank, ?_, ?_⟩
  · simp [insideOpen, dark moreBlank, typeOpen, dark lastBlank]
  · simp only [position_between, List.append_assoc, List.cons_append, List.nil_append]

variable {front characters before rest : List Char}

private theorem eq_nil_of_shapes {earlier blanks rest otherBlanks otherRest : List Char}
    (same : earlier ++ '(' :: (blanks ++ '{' :: rest) = '(' :: (otherBlanks ++ '{' :: otherRest))
    (blank : Blank otherBlanks) (closed : '{' ∉ rest) (otherClosed : '{' ∉ otherRest) :
    earlier = [] := by
  have split : (earlier ++ '(' :: blanks) ++ '{' :: rest =
      ('(' :: otherBlanks) ++ '{' :: otherRest := by simpa using same
  obtain ⟨fronts, -, -⟩ := append_cons_inj_of_not (· ≠ '{') split (by simp) (by simp)
    (fun c member same => closed (same ▸ member)) fun c member same => otherClosed (same ▸ member)
  cases earlier with
  | nil => rfl
  | cons c earlier =>
    obtain ⟨-, rfl⟩ := List.cons.inj fronts
    have dark := blank '(' (by simp)
    exact absurd dark (by decide)

theorem inner_parameterPattern (frame : Frame) (unclosed : frame.closing = none) :
    Inner frame (Span.shift · frame.offset) parameterPattern parameterPattern := by
  have free {property : Char → Prop} : ∀ c ∈ frame.closing, property c := by simp [unclosed]
  have nothing := frame.closed unclosed
  have type : Inner frame id (do
      Pattern.literal ":"
      Pattern.run <| .noneOf
        [Byte.openParen, Byte.closeParen, Byte.openBrace, Byte.closeBrace, Byte.equals] :
        Pattern Unit) _ :=
    (Inner.literal [':'] free).bind fun _ => Inner.run free
  exact (Inner.literal ['('] free).bind fun _ => (Inner.run free).bind fun _ =>
    (Inner.literal ['{'] free).bind fun _ => (Inner.run free).spanned.bind fun inside =>
      (Inner.literal ['}'] free).bind fun _ => (Inner.run free).bind fun _ =>
        type.optional.bind fun _ => (Inner.literal [')'] free).bind fun _ =>
          (Inner.run free).bind fun _ => (Inner.textEnd nothing).bind fun _ => Inner.pure _ inside

/-- More text in front of the stretch changes only where the destructuring pattern stands. -/
theorem find?_parameterPattern_append {found : Match Span}
    (here : parameterPattern.find? (encode characters) = some found) :
    parameterPattern.find? (encode (front ++ characters)) =
      some ⟨found.span.shift (encode front).length, found.value.shift (encode front).length⟩ := by
  obtain ⟨before, after, rfl, reads⟩ := exists_of_mem_search (List.mem_of_mem_head? here)
  obtain ⟨_, matched, -⟩ := exists_of_matchAt? reads
  obtain ⟨blanks, inside, tail, rfl, -, closed, -⟩ := shape_of_mem_parameterPattern matched
  let frame : Frame := ⟨front, [], none, fun _ => rfl⟩
  have closes : frame.Closes ('(' :: (blanks ++ '{' :: (inside ++ '}' :: tail))) := by
    simp [Frame.Closes, frame]
  have there := (inner_parameterPattern frame rfl).matchAt?_eq before closes
  rw [reads, List.append_nil] at there
  have fails (first second : List Char) (split : front ++ before = first ++ second)
      (nonempty : second ≠ []) (value : Span) (cursor : Cursor) : (value, cursor) ∉
        parameterPattern (between ([] ++ first)
          (second ++ '(' :: (blanks ++ '{' :: (inside ++ '}' :: tail)))) := by
    intro earlier
    obtain ⟨others, _, _, shape, blank, otherClosed, -⟩ := shape_of_mem_parameterPattern earlier
    exact nonempty (eq_nil_of_shapes shape blank closed otherClosed)
  rw [find?, ← List.append_assoc, search_encode, searchBehind_of_fails fails]
  exact head?_searchBehind there

private theorem exists_window (known piece rest : List Char)
    (reached : (encode (known ++ piece)).length - parameterReach ≤ (encode known).length) :
    ∃ front window, known = front ++ window ∧
      (encode (known ++ piece)).length - parameterReach ≤ (encode front).length ∧
      (encode (known ++ piece ++ rest)).slice (windowBefore (encode (known ++ piece ++ rest))
        (encode (known ++ piece)).length) = encode (window ++ piece) := by
  have string : IsString (encode (known ++ piece ++ rest)) := ⟨_, rfl⟩
  have boundary : (encode (known ++ piece ++ rest)).IsBoundary (encode known).length := by
    rw [List.append_assoc]
    exact isBoundary_encode known (piece ++ rest)
  obtain ⟨begins, ordered⟩ := isBoundary_characterBoundary string boundary reached
  obtain ⟨front, others, split, length⟩ := begins.exists_append
  have inside : (encode (known ++ piece)).length - parameterReach ≤
      (encode (known ++ piece ++ rest)).length := by simp; omega
  rw [← length] at ordered
  obtain ⟨window, rfl, rfl⟩ := exists_append_of_length_le
    (split.symm.trans (List.append_assoc known piece rest)) ordered
  refine ⟨front, window, rfl, ?_, ?_⟩
  · rw [length]
    exact le_characterBoundary inside
  · rw [windowBefore, ← length]
    have shape : front ++ window ++ piece ++ rest = front ++ (window ++ piece) ++ rest := by simp
    rw [shape, encode_append, encode_append front]
    exact slice_append (encode rest) rfl (by simp)

/-- What a function takes out of its parameter it takes out of a stretch that ends in front of it. -/
theorem exists_window_before (before rest : List Char) :
    ∃ front window, before = front ++ window ∧
      (encode before).length - parameterReach ≤ (encode front).length ∧
      (encode (before ++ rest)).slice (windowBefore (encode (before ++ rest))
        (encode before).length) = encode window := by
  obtain ⟨front, window, split, reached, windowEq⟩ := exists_window before [] rest (by simp)
  simp only [List.append_nil] at reached windowEq
  exact ⟨front, window, split, reached, windowEq⟩

/-- What a function takes out of its parameter it takes out of it in a larger text. -/
theorem mem_destructured_around (front behind : List Char) {name : Text}
    (member : name ∈ destructured (encode (before ++ rest)) (encode before).length) :
    name ∈ destructured (encode (front ++ (before ++ rest) ++ behind))
      ((encode before).length + (encode front).length) := by
  obtain ⟨far, window, rfl, reached, windowEq⟩ := exists_window_before before rest
  obtain ⟨-, more, -, -, largerEq⟩ := exists_window (front ++ far) window (rest ++ behind) (by
    simp only [encode_append, List.length_append] at reached ⊢
    omega)
  have whole : front ++ far ++ window ++ (rest ++ behind) =
      front ++ (far ++ window ++ rest) ++ behind := by simp
  have place : (encode (front ++ far ++ window)).length =
      (encode (far ++ window)).length + (encode front).length := by
    simp only [encode_append, List.length_append]
    omega
  rw [whole, place] at largerEq
  rw [destructured, windowEq] at member
  rw [destructured, largerEq]
  cases found : parameterPattern.find? (encode window) with
  | none => simp [found] at member
  | some hit =>
    rw [find?_parameterPattern_append found]
    simp only [found] at member
    simp only [encode_append, slice_shift]
    exact member

/-- Behind no parenthesis nothing is taken out of a parameter. -/
theorem destructured_eq_nil (apart : '(' ∉ before) :
    destructured (encode (before ++ rest)) (encode before).length = [] := by
  obtain ⟨far, window, rfl, reached, windowEq⟩ := exists_window_before before rest
  rw [destructured, windowEq]
  cases found : parameterPattern.find? (encode window) with
  | none => rfl
  | some hit =>
    obtain ⟨front, after, rfl, reads⟩ := exists_of_mem_search (List.mem_of_mem_head? found)
    obtain ⟨_, matched, -⟩ := exists_of_matchAt? reads
    obtain ⟨blanks, inside, tail, rfl, -⟩ := shape_of_mem_parameterPattern matched
    simp at apart

end LocalNames

end BareComponent
