import BareComponent.Proofs.Json.Quoted
import BareComponent.Proofs.Text.Decimal

/-! # A printed value is one line

Strings and keys can hold line ends, and they are escaped. Whatever else is printed, the digits and
signs of numbers included, is no line end, so a value is printed on one line.
-/

namespace BareComponent

open Byte

namespace Number

def isNumeral (b : UInt8) : Bool := isDigit b || b == minus || b == plus || b == dot || b == 0x65

private theorem all_ofNat (number : Nat) : (Text.ofNat number).all isNumeral = true :=
  List.all_eq_true.mpr fun b member => by simp [isNumeral, Text.isDigit_of_mem_ofNat member]

private theorem all_ofInt (value : Int) : (Text.ofInt value).all isNumeral = true := by
  have sign : isNumeral minus = true := by decide
  cases value with
  | ofNat number => exact all_ofNat number
  | negSucc number => simp [Text.ofInt, sign, all_ofNat]

private theorem all_decimalText (digits : Nat) (exponent : Int) :
    (decimalText digits exponent).all isNumeral = true := by
  have marks : (Text.ofString "0.0").all isNumeral = true ∧
      (Text.ofString ".0").all isNumeral = true ∧ (Text.ofString "0.").all isNumeral = true ∧
      (Text.ofString "e").all isNumeral = true ∧ isNumeral zero = true ∧ isNumeral dot = true ∧
      isNumeral plus = true := by decide
  obtain ⟨nothing, whole, point, power, zeros, dots, positive⟩ := marks
  have cut (count : Nat) : ((Text.ofNat digits).take count).all isNumeral = true ∧
      ((Text.ofNat digits).drop count).all isNumeral = true := by
    rw [← Bool.and_eq_true, ← List.all_append, List.take_append_drop]
    exact all_ofNat digits
  have repeated (count : Nat) : (List.replicate count zero).all isNumeral = true := by
    rw [List.all_replicate]
    split <;> simp [zeros]
  unfold decimalText
  dsimp only
  split_ifs <;>
    simp only [List.all_append, List.all_cons, List.all_nil, Bool.and_true, nothing, whole, point,
      power, dots, positive, all_ofNat, all_ofInt, (cut _).1, (cut _).2, repeated]

/-- No number is printed over two lines. -/
theorem newline_not_mem_print (number : Number) : newline ∉ number.print := by
  have numerals : number.print.all isNumeral = true := by
    cases number with
    | integer value => exact all_ofInt value
    | decimal isNegative digits exponent =>
      rw [print, List.all_append, all_decimalText]
      cases isNegative <;> decide
  intro member
  exact absurd (List.all_eq_true.mp numerals _ member) (by decide)

end Number

namespace Json

mutual

/-- No line ends in a printed value. -/
theorem newline_not_mem_print : (value : Json) → newline ∉ value.print
  | null => by decide
  | bool true => by decide
  | bool false => by decide
  | number value => value.newline_not_mem_print
  | string value => value.newline_not_mem_quoted
  | array items => by
    have brackets : newline ≠ openBracket ∧ newline ≠ closeBracket := by decide
    simp [print, brackets, newline_not_mem_printItems items]
  | object fields => by
    have braces : newline ≠ openBrace ∧ newline ≠ closeBrace := by decide
    simp [print, braces, newline_not_mem_printFields fields]

private theorem newline_not_mem_printItems : (items : List Json) → newline ∉ printItems items
  | [] => List.not_mem_nil
  | [item] => newline_not_mem_print item
  | item :: next :: items => by
    have separator : newline ≠ comma := by decide
    simp [printItems, separator, newline_not_mem_print item,
      newline_not_mem_printItems (next :: items)]

private theorem newline_not_mem_printFields :
    (fields : List (Text × Json)) → newline ∉ printFields fields
  | [] => List.not_mem_nil
  | [(key, value)] => by
    have separator : newline ≠ colon := by decide
    simp [printFields, separator, key.newline_not_mem_quoted, newline_not_mem_print value]
  | (key, value) :: next :: fields => by
    have separators : newline ≠ colon ∧ newline ≠ comma := by decide
    simp [printFields, separators, key.newline_not_mem_quoted, newline_not_mem_print value,
      newline_not_mem_printFields (next :: fields)]

end

end Json

end BareComponent
