/-! # Binary numbers of 53 bits

A binary number is a mantissa times a power of two. The nearest one to a fraction has a mantissa of
at most 53 bits, and no power below `2 ^ -1074` is used, so that small numbers lose bits instead. A
tie goes to the even mantissa. Everything is computed exactly on natural numbers.
-/

namespace BareComponent

def powerOfTwo (exponent : Nat) : Nat := Nat.pow 2 exponent

def powerOfTen (exponent : Nat) : Nat := Nat.pow 10 exponent

/-- The number `mantissa * 2 ^ exponent`. -/
structure Binary where
  mantissa : Nat
  exponent : Int
deriving DecidableEq, Repr

/-- A quotient rounded to the nearest natural number, a tie to the even one. -/
def roundQuotient (numerator denominator : Nat) : Nat :=
  let quotient := numerator / denominator
  let twice := 2 * (numerator % denominator)
  if twice < denominator ∨ (twice = denominator ∧ quotient % 2 = 0) then quotient
  else quotient + 1

namespace Binary

def leastExponent : Int := -1074

def numerator (x : Binary) : Nat := x.mantissa * powerOfTwo x.exponent.toNat

def denominator (x : Binary) : Nat := powerOfTwo (-x.exponent).toNat

/-- Numerator and denominator of a fraction divided by a power of two. -/
def scaled (exponent : Int) (numerator denominator : Nat) : Nat × Nat :=
  (numerator * powerOfTwo (-exponent).toNat, denominator * powerOfTwo exponent.toNat)

/-- The mantissa closest to a fraction at some exponent. -/
def roundAt (exponent : Int) (numerator denominator : Nat) : Nat :=
  let (numerator, denominator) := scaled exponent numerator denominator
  roundQuotient numerator denominator

/-- The exponent at which the whole part of a positive fraction has 53 bits. -/
def fittingExponent (numerator denominator : Nat) : Int :=
  let exponent : Int := (numerator.log2 : Int) - denominator.log2 - 52
  let (numerator, denominator) := scaled exponent numerator denominator
  if numerator < powerOfTwo 52 * denominator then exponent - 1 else exponent

/-- The number nearest to a fraction. A mantissa that is rounded up to 54 bits is a power of two and
gives its last bit to the exponent. -/
def nearest (numerator denominator : Nat) : Binary :=
  if numerator = 0 then ⟨0, 0⟩
  else
    let exponent := max leastExponent (fittingExponent numerator denominator)
    let mantissa := roundAt exponent numerator denominator
    if mantissa = powerOfTwo 53 then ⟨powerOfTwo 52, exponent + 1⟩ else ⟨mantissa, exponent⟩

/-- Whether the number is below `2 ^ 1024`, the bound of the format. -/
def isFinite (x : Binary) : Bool := x.numerator < powerOfTwo 1024 * x.denominator

/-- The number nearest to a product. -/
def mul (x y : Binary) : Binary :=
  nearest (x.numerator * y.numerator) (x.denominator * y.denominator)

/-- The number nearest to a quotient. -/
def div (x y : Binary) : Binary :=
  nearest (x.numerator * y.denominator) (x.denominator * y.numerator)

/-- The largest power of ten that one multiplication or division takes. -/
def greatestPower : Nat := 308

/-- The number read from `significand * 10 ^ exponent`: the significand and the power of ten are
rounded and then multiplied or divided, the power in portions if it is below the smallest one.
There is none beyond the bound of the format. -/
def ofScientific? (significand : Nat) (exponent : Int) : Option Binary :=
  let start := nearest significand 1
  if significand = 0 then some start
  else
    match exponent with
    | .ofNat power =>
      if greatestPower < power then none
      else
        let result := start.mul (nearest (powerOfTen power) 1)
        if result.isFinite then some result else none
    | .negSucc power =>
      let power := power + 1
      let portion := nearest (powerOfTen greatestPower) 1
      if power ≤ greatestPower then some (start.div (nearest (powerOfTen power) 1))
      else if power ≤ 2 * greatestPower then
        some ((start.div portion).div (nearest (powerOfTen (power - greatestPower)) 1))
      else some ⟨0, 0⟩

end Binary

end BareComponent
