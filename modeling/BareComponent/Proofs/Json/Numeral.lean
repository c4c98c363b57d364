import BareComponent.Json.Printer
import BareComponent.Json.Reader
import BareComponent.Proofs.Text.Decimal
import Mathlib.Data.List.TakeWhile

/-! # Reading a number

A reader of a number stops at the first byte that cannot go on with it. So a number that was read to
the end of a text is read in the same way in front of any text that does not begin with a digit, a
point or the `e` of a power. An integer is read back from its digits, which come without leading
zeros and do not outgrow a significand if the integer fits into 64 bits.
-/

namespace BareComponent

def Byte.continuesNumber (b : UInt8) : Bool := isDigit b || b == dot || b == 0x65 || b == 0x45

/-- Whether a text does not go on with a number in front of it. -/
def Text.EndsNumber (text : Text) : Prop := ∀ b ∈ text.head?, Byte.continuesNumber b = false

theorem Text.endsNumber_cons {b : UInt8} (rest : Text)
    (other : Byte.continuesNumber b = false) : EndsNumber (b :: rest) := by
  rintro c first
  obtain rfl := Option.some.inj first
  exact other

namespace Reader

/-- Whether a reader that stops in a text stops at the same place when more text follows; when it
reads to the end, what follows must not go on with a number. -/
def IsLocal {α : Type} (reader : Reader α) : Prop :=
  ∀ text more value rest, reader text = some (value, rest) → (rest = [] → more.EndsNumber) →
    reader (text ++ more) = some (value, rest ++ more)

section Locality

variable {text more : Text}

private theorem isDigit_head? {b : UInt8} (ends : Text.EndsNumber (b :: more)) :
    Byte.isDigit b = false := by
  have other := ends b rfl
  simp only [Byte.continuesNumber, Bool.or_eq_false_iff] at other
  exact other.1.1.1

/-- The digits of a text end where its number does. -/
theorem digits_append (stops : (digits text).2 = [] → more.EndsNumber) :
    digits (text ++ more) = ((digits text).1, (digits text).2 ++ more) := by
  induction text with
  | nil =>
    cases more with
    | nil => rfl
    | cons b more => simp [digits, isDigit_head? (stops rfl)]
  | cons b text ih =>
    by_cases digit : Byte.isDigit b
    · simp only [digits, List.cons_append, List.takeWhile_cons, List.dropWhile_cons, digit, if_true,
        Prod.mk.injEq] at ih stops ⊢
      obtain ⟨taken, dropped⟩ := ih stops
      exact ⟨by rw [taken], dropped⟩
    · simp [digits, digit]

theorem isLocal_wholePart : IsLocal wholePart := by
  intro text more value rest read stops
  unfold wholePart at read ⊢
  split at read
  · contradiction
  · next first others left shape =>
    split at read
    · contradiction
    · next plain =>
      obtain ⟨rfl, rfl⟩ := Prod.mk.inj (Option.some.inj read)
      rw [digits_append (by rw [shape]; exact stops), shape]
      simp only [plain, if_false]

theorem isLocal_fraction : IsLocal fraction := by
  intro text more value rest read stops
  cases text with
  | nil =>
    obtain ⟨rfl, rfl⟩ := Prod.mk.inj (Option.some.inj read)
    cases more with
    | nil => rfl
    | cons b more =>
      have other : b ≠ Byte.dot := fun same => absurd (stops rfl b rfl) (by rw [same]; decide)
      simp [fraction, other]
  | cons b text =>
    simp only [fraction, List.cons_append] at read ⊢
    split at read
    · next point =>
      split at read
      · contradiction
      · next given =>
        obtain ⟨rfl, rfl⟩ := Prod.mk.inj (Option.some.inj read)
        rw [if_pos point, digits_append stops]
        simp only [given, if_false]
    · next point =>
      obtain ⟨rfl, rfl⟩ := Prod.mk.inj (Option.some.inj read)
      simp [point]

private def powerSign : Text → Bool × Text
  | [] => (false, [])
  | sign :: rest =>
    if sign = Byte.minus then (true, rest)
    else if sign = Byte.plus then (false, rest)
    else (false, sign :: rest)

private theorem powerSign_append (nonempty : text ≠ []) :
    powerSign (text ++ more) = ((powerSign text).1, (powerSign text).2 ++ more) := by
  obtain ⟨sign, text, rfl⟩ := List.exists_cons_of_ne_nil nonempty
  simp only [powerSign, List.cons_append]
  split
  · rfl
  · split <;> rfl

private theorem power_cons {b : UInt8} (exponent : b = 0x65 ∨ b = 0x45) (text : Text) :
    power (b :: text) =
      let (found, rest) := digits (powerSign text).2
      if found = [] then none
      else
        let value : Int := Text.digitsValue found
        some (some (if (powerSign text).1 then -value else value), rest) := by
  simp only [power, if_pos exponent]
  cases text <;> rfl

theorem isLocal_power : IsLocal power := by
  intro text more value rest read stops
  cases text with
  | nil =>
    obtain ⟨rfl, rfl⟩ := Prod.mk.inj (Option.some.inj read)
    cases more with
    | nil => rfl
    | cons b more =>
      have other : ¬(b = 0x65 ∨ b = 0x45) := by
        rintro (rfl | rfl) <;> exact absurd (stops rfl _ rfl) (by decide)
      simp only [power, List.nil_append, if_neg other]
  | cons b text =>
    by_cases exponent : b = 0x65 ∨ b = 0x45
    · rw [List.cons_append]
      rw [power_cons exponent] at read ⊢
      dsimp only at read ⊢
      split at read
      · contradiction
      · next given =>
        obtain ⟨rfl, rfl⟩ := Prod.mk.inj (Option.some.inj read)
        have nonempty : text ≠ [] := by
          rintro rfl
          exact given rfl
        rw [powerSign_append nonempty, digits_append stops, if_neg given]
    · simp only [power, List.cons_append, if_neg exponent] at read ⊢
      obtain ⟨rfl, rfl⟩ := Prod.mk.inj (Option.some.inj read)
      rw [List.cons_append]

end Locality

/-- The digits of a number are read as its whole part. -/
theorem wholePart_ofNat (number : Nat) :
    wholePart (Text.ofNat number) = some (Text.ofNat number, []) := by
  have read : digits (Text.ofNat number) = (Text.ofNat number, []) := by
    have all : ∀ b ∈ Text.ofNat number, Byte.isDigit b = true := fun _ => Text.isDigit_of_mem_ofNat
    rw [digits, List.takeWhile_eq_self_iff.mpr all, List.dropWhile_eq_nil_iff.mpr all]
  rw [wholePart, read]
  rcases Nat.eq_zero_or_pos number with rfl | positive
  · decide
  · obtain ⟨b, first, other⟩ := Text.head?_ofNat positive
    obtain ⟨rest, shape⟩ := List.head?_eq_some_iff.mp first
    rw [shape]
    simp only [other, false_and, if_false]

end Reader

namespace Number

open Reader

private def unsigned (isNegative : Bool) : Reader Number := fun text => do
  let (whole, rest) ← wholePart text
  let (fraction, rest) ← Reader.fraction rest
  let (power, rest) ← Reader.power rest
  (ofParts? isNegative whole fraction power).map (·, rest)

private theorem reader_cons (b : UInt8) (text : Text) :
    reader true (b :: text) =
      if b = Byte.minus then unsigned true text else unsigned false (b :: text) := by
  simp only [reader]
  split <;> rfl

private theorem isLocal_unsigned (isNegative : Bool) : IsLocal (unsigned isNegative) := by
  intro text more value rest read stops
  simp only [unsigned, Option.bind_eq_bind, Option.bind_eq_some_iff] at read ⊢
  obtain ⟨⟨whole, behind⟩, whole_eq, ⟨fraction, left⟩, fraction_eq, ⟨power, last⟩, power_eq,
    number⟩ := read
  obtain ⟨number, parts, same⟩ := Option.map_eq_some_iff.mp number
  obtain ⟨rfl, rfl⟩ := Prod.mk.inj same
  have afterFraction : left = [] → more.EndsNumber := by
    rintro rfl
    exact stops (Prod.mk.inj (Option.some.inj power_eq)).2.symm
  have afterWhole : behind = [] → more.EndsNumber := by
    rintro rfl
    exact afterFraction (Prod.mk.inj (Option.some.inj fraction_eq)).2.symm
  exact ⟨_, isLocal_wholePart _ more _ _ whole_eq afterWhole,
    _, isLocal_fraction _ more _ _ fraction_eq afterFraction,
    _, isLocal_power _ more _ _ power_eq stops, by rw [parts]; rfl⟩

/-- A number begins with a minus sign or a digit. -/
theorem exists_cons_of_reader {text rest : Text} {value : Number}
    (read : reader true text = some (value, rest)) :
    ∃ b more, text = b :: more ∧ (b = Byte.minus ∨ Byte.isDigit b = true) := by
  cases text with
  | nil => exact absurd read (by simp [reader, wholePart, digits])
  | cons b text =>
    refine ⟨b, text, rfl, Decidable.or_iff_not_imp_left.mpr fun sign => ?_⟩
    rw [reader_cons, if_neg sign] at read
    refine Decidable.byContradiction fun other => ?_
    simp [unsigned, wholePart, digits, other] at read

/-- A number is read in the same way in front of what does not go on with it. -/
theorem isLocal_reader : IsLocal (reader true) := by
  intro text more value rest read stops
  cases text with
  | nil => exact absurd read (by simp [reader, wholePart, digits])
  | cons b text =>
    rw [List.cons_append]
    rw [reader_cons] at read ⊢
    split at read
    · next sign =>
      rw [if_pos sign]
      exact isLocal_unsigned true text more value rest read stops
    · next sign =>
      rw [if_neg sign]
      exact isLocal_unsigned false (b :: text) more value rest read stops

private theorem le_foldl_readDigit (digits : Text) (significand : Nat) :
    significand ≤ digits.foldl Text.readDigit significand := by
  induction digits generalizing significand with
  | nil => exact Nat.le_refl _
  | cons b digits ih =>
    refine Nat.le_trans ?_ (ih _)
    rw [Text.readDigit]
    omega

/-- Digits that do not outgrow the significand are all taken. -/
theorem accumulate_eq {digits : Text} {significand : Nat}
    (fits : digits.foldl Text.readDigit significand ≤ greatestSignificand) :
    accumulate significand digits = (digits.foldl Text.readDigit significand, digits.length) := by
  induction digits generalizing significand with
  | nil => rfl
  | cons b digits ih =>
    have next : significand * 10 + Byte.digitValue b ≤ greatestSignificand :=
      (le_foldl_readDigit digits _).trans fits
    have others : accumulate (significand * 10 + Byte.digitValue b) digits =
        (digits.foldl Text.readDigit (significand * 10 + Byte.digitValue b), digits.length) :=
      ih fits
    simp only [accumulate, if_pos next, others]
    rfl

/-- The digits of a number that fits give the number back. -/
theorem accumulate_ofNat {number : Nat} (fits : number ≤ greatestSignificand) :
    accumulate 0 (Text.ofNat number) = (number, (Text.ofNat number).length) := by
  have value : (Text.ofNat number).foldl Text.readDigit 0 = number := Text.digitsValue_ofNat number
  rw [accumulate_eq (value.trans_le fits), value]

/-- Whether an integer fits into 64 bits, with a sign or without one. -/
def Fits (value : Int) : Prop := -greatestNegative ≤ value ∧ value ≤ greatestSignificand

/-- An integer of 64 bits is read back from its digits. -/
theorem reader_print_integer {value : Int} (fits : Fits value) :
    reader true (print (.integer value)) = some (.integer value, []) := by
  obtain ⟨least, greatest⟩ := fits
  have parts (isNegative : Bool) (number : Nat) :
      unsigned isNegative (Text.ofNat number) =
        (ofParts? isNegative (Text.ofNat number) [] none).map (·, []) := by
    simp [unsigned, wholePart_ofNat, fraction, power]
  cases value with
  | ofNat number =>
    have small : number ≤ greatestSignificand := Int.ofNat_le.mp greatest
    obtain ⟨b, digits, shape⟩ := List.exists_cons_of_ne_nil (Text.ofNat_ne_nil number)
    have digit : Byte.isDigit b = true := Text.isDigit_of_mem_ofNat (shape ▸ List.mem_cons_self)
    have sign : b ≠ Byte.minus := by
      rintro rfl
      exact absurd digit (by decide)
    have shown : print (.integer (.ofNat number)) = Text.ofNat number := rfl
    rw [shown, shape, reader_cons, if_neg sign, ← shape, parts false]
    simp [ofParts?, accumulate_ofNat small]
  | negSucc number =>
    have small : number + 1 ≤ greatestNegative := by omega
    have inside : number + 1 ≤ greatestSignificand := small.trans (by decide)
    have shown : print (.integer (.negSucc number)) = Byte.minus :: Text.ofNat (number + 1) := rfl
    rw [shown, reader_cons, if_pos rfl, parts true]
    simp [ofParts?, accumulate_ofNat inside, small, Int.negSucc_eq]

end Number

end BareComponent
