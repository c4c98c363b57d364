import BareComponent.Text.Byte
import BareComponent.Text.Decimal
import Mathlib.Tactic.IntervalCases

/-! # Decimal digits

The digits of a number are read back as the number, so different numbers have different digits. None
but zero itself begins with a zero.
-/

namespace BareComponent

namespace Byte

theorem digitValue_ofDigit {digit : Nat} (small : digit < 10) :
    digitValue (ofDigit digit) = digit := by
  interval_cases digit <;> rfl

theorem isDigit_ofDigit {digit : Nat} (small : digit < 10) : isDigit (ofDigit digit) = true := by
  interval_cases digit <;> rfl

end Byte

namespace Text

/-- The number that digits stand for when one more digit comes behind them. -/
def readDigit (number : Nat) (b : UInt8) : Nat := number * 10 + Byte.digitValue b

private theorem foldl_digitsBefore {limit number : Nat} (enough : number < 10 ^ limit)
    (tail : Text) :
    (digitsBefore limit number tail).foldl readDigit 0 = tail.foldl readDigit number := by
  induction limit generalizing number tail with
  | zero =>
    obtain rfl : number = 0 := by simpa using enough
    rfl
  | succ limit ih =>
    have digit := Byte.digitValue_ofDigit (Nat.mod_lt number (by decide : 0 < 10))
    rw [digitsBefore]
    split
    · next small =>
      simp only [List.foldl_cons, readDigit, digit]
      congr 1
      omega
    · rw [ih (by rw [Nat.pow_succ] at enough; omega)]
      simp only [List.foldl_cons, readDigit, digit]
      congr 1
      omega

/-- The digits of a number stand for it. -/
theorem digitsValue_ofNat (number : Nat) : digitsValue (ofNat number) = number := by
  have enough : number < 10 ^ (number.log2 + 1) :=
    Nat.lt_of_lt_of_le Nat.lt_log2_self (Nat.pow_le_pow_left (by decide) _)
  exact foldl_digitsBefore enough []

/-- Numbers are told apart by their digits. -/
theorem ofNat_injective : Function.Injective ofNat := fun first second same => by
  rw [← digitsValue_ofNat first, same, digitsValue_ofNat]

private theorem isDigit_of_mem_digitsBefore {limit number : Nat} {tail : Text} {b : UInt8}
    (member : b ∈ digitsBefore limit number tail) : Byte.isDigit b = true ∨ b ∈ tail := by
  induction limit generalizing number tail with
  | zero => exact .inr member
  | succ limit ih =>
    have digit := Byte.isDigit_ofDigit (Nat.mod_lt number (by decide : 0 < 10))
    rw [digitsBefore] at member
    split at member
    · rcases List.mem_cons.mp member with rfl | later
      · exact .inl digit
      · exact .inr later
    · rcases ih member with found | later
      · exact .inl found
      · rcases List.mem_cons.mp later with rfl | later
        · exact .inl digit
        · exact .inr later

/-- The digits of a number are digits. -/
theorem isDigit_of_mem_ofNat {number : Nat} {b : UInt8} (member : b ∈ ofNat number) :
    Byte.isDigit b = true :=
  (isDigit_of_mem_digitsBefore member).resolve_right List.not_mem_nil

private theorem digitsBefore_ne_nil {limit number : Nat} {tail : Text} (nonempty : tail ≠ []) :
    digitsBefore limit number tail ≠ [] := by
  induction limit generalizing number tail with
  | zero => exact nonempty
  | succ limit ih =>
    rw [digitsBefore]
    split
    · simp
    · exact ih (by simp)

theorem ofNat_ne_nil (number : Nat) : ofNat number ≠ [] := by
  rw [ofNat, digitsBefore]
  split
  · simp
  · exact digitsBefore_ne_nil (by simp)

private theorem head?_digitsBefore {limit number : Nat} (enough : number < 10 ^ limit)
    (positive : 0 < number) (tail : Text) :
    ∃ b ∈ (digitsBefore limit number tail).head?, b ≠ Byte.zero := by
  induction limit generalizing number tail with
  | zero =>
    rw [Nat.pow_zero] at enough
    omega
  | succ limit ih =>
    rw [digitsBefore]
    split
    · next small =>
      refine ⟨_, rfl, fun same => ?_⟩
      have value := Byte.digitValue_ofDigit (Nat.mod_lt number (by decide : 0 < 10))
      rw [same, Nat.mod_eq_of_lt small] at value
      exact absurd value (Nat.ne_of_lt positive)
    · exact ih (by rw [Nat.pow_succ] at enough; omega) (by omega) _

/-- The digits of a number other than zero begin with another digit than zero. -/
theorem head?_ofNat {number : Nat} (positive : 0 < number) :
    ∃ b ∈ (ofNat number).head?, b ≠ Byte.zero :=
  head?_digitsBefore (Nat.lt_of_lt_of_le Nat.lt_log2_self (Nat.pow_le_pow_left (by decide) _))
    positive []

end Text

end BareComponent
