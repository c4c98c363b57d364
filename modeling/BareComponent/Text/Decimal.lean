import BareComponent.Text.Basic

/-! # Digits in text

Natural numbers as their decimal digits without leading zeros, and digits read back as the number
they stand for.
-/

namespace BareComponent

/-- The digit that stands for a number below ten. -/
def Byte.ofDigit (digit : Nat) : UInt8 := zero + digit.toUInt8

def Byte.digitValue (b : UInt8) : Nat := b.toNat - zero.toNat

namespace Text

/-- The digits of a number in front of `tail`, at most `limit` of them. -/
def digitsBefore : (limit : Nat) → Nat → Text → Text
  | 0, _, tail => tail
  | limit + 1, number, tail =>
    let tail := Byte.ofDigit (number % 10) :: tail
    if number < 10 then tail else digitsBefore limit (number / 10) tail

def ofNat (number : Nat) : Text := digitsBefore (number.log2 + 1) number []

/-- The decimal digits of a number, behind a minus sign if it is negative. -/
def ofInt : Int → Text
  | .ofNat number => ofNat number
  | .negSucc number => Byte.minus :: ofNat (number + 1)

def digitsValue (digits : Text) : Nat :=
  digits.foldl (fun number b => number * 10 + Byte.digitValue b) 0

end Text

end BareComponent
