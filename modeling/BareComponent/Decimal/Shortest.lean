import BareComponent.Decimal.Binary

/-! # Shortest decimals

The shortest decimal of a binary number is the one with the fewest digits among those that round to
it, and the nearest of these. It is found on the coarsest grid of multiples of a power of ten on
which a neighbour of the number rounds to it.
-/

namespace BareComponent.Binary

/-- The distance from a number to the ends of the interval that rounds to it, below and above, in
quarters of its last bit. Just above a power of two the lower half is a quarter. -/
def margins (x : Binary) : Nat × Nat :=
  if x.mantissa = powerOfTwo 52 ∧ leastExponent < x.exponent then (1, 2) else (2, 2)

/-- Whether `digits * 10 ^ power` lies in the interval that rounds to a number. The ends belong to
it if the mantissa is even. -/
def isRoundedFrom (x : Binary) (digits : Nat) (power : Int) : Bool :=
  let (below, above) := x.margins
  let quarter : Int := x.exponent - 2
  let decimal := digits * powerOfTen power.toNat * powerOfTwo (-quarter).toNat
  let unit := powerOfTwo quarter.toNat * powerOfTen (-power).toNat
  let low := (4 * x.mantissa - below) * unit
  let high := (4 * x.mantissa + above) * unit
  if x.mantissa % 2 = 0 then low ≤ decimal && decimal ≤ high else low < decimal && decimal < high

/-- The multiple of `10 ^ power` next to a number that rounds to it, the nearer one if both do. -/
def onGrid? (x : Binary) (power : Int) : Option Nat :=
  let numerator := x.numerator * powerOfTen (-power).toNat
  let denominator := x.denominator * powerOfTen power.toNat
  let nearer := roundQuotient numerator denominator
  let floor := numerator / denominator
  let farther := if nearer = floor then floor + 1 else floor
  if x.isRoundedFrom nearer power then some nearer
  else if x.isRoundedFrom farther power then some farther
  else none

/-- The first grid from `power` downwards that holds a decimal of the number. -/
def coarsest (x : Binary) : (fuel : Nat) → (power : Int) → Nat × Int
  | 0, power => (0, power)
  | fuel + 1, power =>
    match x.onGrid? power with
    | some digits => (digits, power)
    | none => coarsest x fuel (power - 1)

/-- Digits and power of ten of the shortest decimal of a number. -/
def shortest (x : Binary) : Nat × Int :=
  if x.mantissa = 0 then (0, 0)
  else
    -- One binary digit is worth 0.30103 decimal ones; the grid above the first digit is a start.
    let power := ((x.mantissa.log2 : Int) + x.exponent) * 30103 / 100000 + 2
    coarsest x 24 power

end BareComponent.Binary
