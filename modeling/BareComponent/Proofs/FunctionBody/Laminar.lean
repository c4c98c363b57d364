import BareComponent.Proofs.FunctionBody.Parameters
import BareComponent.Proofs.Text.Extent

/-! # Function bodies are nested or apart

A body in braces ends at the bracket that closes them and the body of an arrow function at the first
byte that ends its expression, whether or not the brackets of the text belong to each other. So of
two bodies that meet, one stands inside the other.
-/

namespace BareComponent

/-- Whether a stretch stands inside another. -/
def Span.Within (span outer : Span) : Prop := outer.start ≤ span.start ∧ span.stop ≤ outer.stop

/-- Whether one of two stretches ends in front of the other. -/
def Span.Apart (span other : Span) : Prop := span.stop ≤ other.start ∨ other.stop ≤ span.start

instance (span outer : Span) : Decidable (span.Within outer) :=
  inferInstanceAs (Decidable (_ ∧ _))

instance (span other : Span) : Decidable (span.Apart other) :=
  inferInstanceAs (Decidable (_ ∨ _))

namespace FunctionBody

open Text Pattern

/-- Whether a stretch of a text is what stands behind an opening bracket or an expression. -/
inductive Delimited (text : Text) (span : Span) : Prop
  | braces (extent : Extent Byte.isClose text span) (opened : Opened text span)
  | expression (extent : Extent endsExpression text span)

namespace Delimited

variable {text : Text} {first second : Span}

theorem ordered (delimited : Delimited text first) : first.start ≤ first.stop := by
  cases delimited with
  | braces extent => exact extent.ordered
  | expression extent => exact extent.ordered

theorem inside (delimited : Delimited text first) : first.stop ≤ text.length := by
  cases delimited with
  | braces extent => exact extent.inside
  | expression extent => exact extent.inside

private theorem endsExpression_of_isClose {b : UInt8} (closes : Byte.isClose b = true) :
    endsExpression b = true := by
  simp [endsExpression, closes]

private theorem within_of_meets (one : Delimited text first) (other : Delimited text second)
    (starts : first.start ≤ second.start) (meets : second.start ≤ first.stop) :
    second.Within first ∨ first.Within second := by
  cases one with
  | braces extent opened =>
    left
    cases other with
    | braces other => exact ⟨starts, extent.stop_le other (fun _ => id) (fun _ => id) starts meets⟩
    | expression other =>
      exact ⟨starts, extent.stop_le other (fun _ => endsExpression_of_isClose)
        (fun _ => endsExpression_of_isClose) starts meets⟩
  | expression extent =>
    cases other with
    | expression other =>
      exact .inl ⟨starts, extent.stop_le other (fun _ => endsExpression_of_isClose) (fun _ => id)
        starts meets⟩
    | braces other opened =>
      rcases Nat.lt_or_eq_of_le starts with later | same
      · refine .inl ⟨starts, ?_⟩
        rcases Nat.lt_or_eq_of_le extent.inside with ended | whole
        · exact (extent.stop_lt_of_opened other (fun _ => id) opened later meets ended).le
        · exact whole ▸ other.inside
      · exact .inr ⟨same.ge, other.stop_le extent (fun _ => endsExpression_of_isClose)
          (fun _ => endsExpression_of_isClose) same.ge (same.le.trans other.ordered)⟩

/-- Two delimited spans are nested or apart. -/
theorem laminar (one : Delimited text first) (other : Delimited text second) :
    first.Within second ∨ second.Within first ∨ first.Apart second := by
  rcases Nat.le_total first.start second.start with starts | starts
  · rcases Nat.le_total second.start first.stop with meets | apart
    · rcases one.within_of_meets other starts meets with inside | inside
      · exact .inr (.inl inside)
      · exact .inl inside
    · exact .inr (.inr (.inl apart))
  · rcases Nat.le_total first.start second.stop with meets | apart
    · rcases other.within_of_meets one starts meets with inside | inside
      · exact .inl inside
      · exact .inr (.inl inside)
    · exact .inr (.inr (.inr apart))

end Delimited

variable {text : Text} {position : Nat} {body : Span} {function : FunctionBody}

/-- A braced body is delimited. -/
theorem delimited_of_bracedAt? (found : bracedAt? text position = some body) :
    Delimited text body ∧ body.start = position + 1 := by
  rw [bracedAt?] at found
  split at found
  · obtain ⟨closing, closes, rfl⟩ := Option.map_eq_some_iff.mp found
    obtain ⟨extent, opened⟩ := extent_of_closingOf? closes
    exact ⟨.braces extent opened, rfl⟩
  · contradiction

private theorem delimited_of_afterParameters? {characters : List Char}
    (found : afterParameters? (encode characters) position = some body) :
    Delimited (encode characters) body ∧ position < body.start := by
  obtain ⟨closing, brace, closes, behind, braced, -⟩ := exists_brace_of_afterParameters? found
  obtain ⟨delimited, start⟩ := delimited_of_bracedAt? braced
  have := (exists_of_closingOf? closes).1
  exact ⟨delimited, by omega⟩

private theorem delimited_of_ofArrow? (inside : position + 2 ≤ text.length)
    (found : ofArrow? text position = some function) :
    Delimited text function.body ∧ function.start ≤ function.body.start := by
  have next := le_skipBlanks inside
  have start := start_of_ofArrow? found
  rw [ofArrow?] at found
  split at found
  · obtain ⟨body, braced, rfl⟩ := Option.map_eq_some_iff.mp found
    obtain ⟨delimited, place⟩ := delimited_of_bracedAt? braced
    exact ⟨delimited, by simp only [place]; omega⟩
  · obtain rfl := Option.some.inj found
    exact ⟨.expression (extent_expressionEnd (Nat.min_le_left ..)), by simp only; omega⟩

/-- Each body goes on as far as its delimiters let it, behind the place where its function begins. -/
theorem delimited_of_mem_all {text : String} (member : function ∈ all text) :
    Delimited text function.body ∧ function.start ≤ function.body.start := by
  rw [ofString_eq] at member ⊢
  rcases List.mem_append.mp (SourceOrder.mem_of_mem_sort member) with found | method
  · rcases List.mem_append.mp found with word | arrow
    · obtain ⟨found, inside, here⟩ := List.mem_filterMap.mp word
      obtain ⟨body, braced, rfl⟩ := Option.map_eq_some_iff.mp here
      obtain ⟨delimited, behind⟩ := delimited_of_afterParameters? braced
      have forward := (Checked.steps_functionHead.search inside).2.2
      exact ⟨delimited, by dsimp only; omega⟩
    · obtain ⟨found, inside, here⟩ := List.mem_filterMap.mp arrow
      obtain ⟨-, whole, -⟩ := (Steps.literal (isString_ofString "=>")).search inside
      have stop := Checked.stop_of_mem_search_arrow inside
      exact delimited_of_ofArrow? (stop ▸ whole.inside) here
  · obtain ⟨found, inside, here⟩ := List.mem_filterMap.mp method
    split at here
    · obtain ⟨body, braced, rfl⟩ := Option.map_eq_some_iff.mp here
      obtain ⟨delimited, behind⟩ := delimited_of_afterParameters? braced
      have forward := (Checked.ensures_methodHead.search inside).2.2
      exact ⟨delimited, by dsimp only; omega⟩
    · contradiction

/-- Functions are listed in the order of where they begin, each body stands in the text behind that
place, and any two bodies are nested or apart. -/
theorem bodies_laminar (text : String) :
    SourceOrder.Rising (·.start) (all text) ∧
      (∀ function ∈ all text, function.start ≤ function.body.start ∧
        function.body.start ≤ function.body.stop ∧
        function.body.stop ≤ (ofString text).length) ∧
      ∀ function ∈ all text, ∀ other ∈ all text, function.body.Within other.body ∨
        other.body.Within function.body ∨ function.body.Apart other.body := by
  refine ⟨SourceOrder.rising_sort _, fun function member => ?_,
    fun function member other otherMember => ?_⟩
  · obtain ⟨delimited, behind⟩ := delimited_of_mem_all member
    exact ⟨behind, delimited.ordered, delimited.inside⟩
  · exact (delimited_of_mem_all member).1.laminar (delimited_of_mem_all otherMember).1

/-- In a text whose brackets do not belong to each other, the body of an arrow function ends with the
body of the method around it. -/
theorem bodies_laminar_arrow :
    ⟨.method, 0, ⟨5, 18⟩⟩ ∈ all (ofString "f(] { a => [b, c) }, d") ∧
      ⟨.arrowExpression, 8, ⟨11, 18⟩⟩ ∈ all (ofString "f(] { a => [b, c) }, d") ∧
      (Span.Within ⟨5, 18⟩ ⟨11, 18⟩ ∨ Span.Within ⟨11, 18⟩ ⟨5, 18⟩ ∨
        Span.Apart ⟨5, 18⟩ ⟨11, 18⟩) := by
  have method : ⟨.method, 0, ⟨5, 18⟩⟩ ∈ all (ofString "f(] { a => [b, c) }, d") := by
    decide +kernel
  have arrow : ⟨.arrowExpression, 8, ⟨11, 18⟩⟩ ∈ all (ofString "f(] { a => [b, c) }, d") := by
    decide +kernel
  exact ⟨method, arrow, (bodies_laminar "f(] { a => [b, c) }, d").2.2 _ method _ arrow⟩

end FunctionBody

end BareComponent
