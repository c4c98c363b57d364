import BareComponent.Decimal.Shortest
import BareComponent.Text.Decimal
import BareComponent.Table

/-! # JSON values

A number is an integer of 64 bits, signed or unsigned, or else the shortest decimal of a binary
number. Objects that were read list their fields in rising order of the keys, each key once; an
object built for printing lists them in the order in which they are to appear.
-/

namespace BareComponent

/-- A number in a JSON text. -/
inductive Number where
  /-- A 64-bit integer. -/
  | integer (value : Int)
  /-- The number `digits * 10 ^ exponent`, or its negative. -/
  | decimal (isNegative : Bool) (digits : Nat) (exponent : Int)
deriving DecidableEq, Repr

/-- A JSON value. -/
inductive Json where
  | null
  | bool (value : Bool)
  | number (value : Number)
  | string (value : Text)
  | array (items : List Json)
  | object (fields : List (Text × Json))
deriving Repr

namespace Json

instance : Inhabited Json := ⟨null⟩

def strings (texts : List Text) : Json := array (texts.map string)

def ofNat (value : Nat) : Json := number (.integer value)

/-- The value under a key of an object; nothing for other values. -/
def field? (value : Json) (key : Text) : Option Json :=
  match value with
  | object fields => fields.lookup key
  | _ => none

end Json

end BareComponent
