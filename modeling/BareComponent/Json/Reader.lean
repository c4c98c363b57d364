import BareComponent.Json.Value

/-! # Reading JSON

A reader takes what it reads off the front of a text and answers the rest, or nothing if the text
does not begin with what it reads. Arrays and objects may be nested only so deep; a reader is told
how many more levels it may open. An object keeps the last value given for a key.

A value whose content does not matter is read leniently: it may be nested to any depth, half of a
surrogate pair may stand alone in its strings, and no number in it is too large.
-/

namespace BareComponent

/-- Takes a value off the front of a text. -/
abbrev Reader (α : Type) := Text → Option (α × Text)

namespace Reader

/-- Bytes that may stand between the tokens of a JSON text. -/
def isGap (b : UInt8) : Bool :=
  b == Byte.space || b == Byte.tab || b == Byte.newline || b == Byte.carriageReturn

def skipGap (text : Text) : Text := text.dropWhile isGap

def token? (b : UInt8) (text : Text) : Option Text :=
  match skipGap text with
  | [] => none
  | first :: rest => if first = b then some rest else none

/-- The value of a hexadecimal digit of either case. -/
def hexValue? (b : UInt8) : Option Nat :=
  if Byte.isDigit b then some (b.toNat - 0x30)
  else if 0x61 ≤ b ∧ b ≤ 0x66 then some (b.toNat - 0x61 + 10)
  else if 0x41 ≤ b ∧ b ≤ 0x46 then some (b.toNat - 0x41 + 10)
  else none

def hexUnit : Reader Nat
  | a :: b :: c :: d :: rest => do
    let a ← hexValue? a
    let b ← hexValue? b
    let c ← hexValue? c
    let d ← hexValue? d
    some (((a * 16 + b) * 16 + c) * 16 + d, rest)
  | _ => none

def encode (code : Nat) : Text := String.utf8EncodeChar (Char.ofNat code)

/-- Whether a number is the first half of a surrogate pair. -/
def isLeadingHalf (unit : Nat) : Bool := 0xd800 ≤ unit && unit < 0xdc00

/-- Whether a number is the second half of a surrogate pair. -/
def isTrailingHalf (unit : Nat) : Bool := 0xdc00 ≤ unit && unit < 0xe000

/-- Reads the number of a character from behind `\u`. Two halves of a surrogate pair make one
character; half a pair is none, but a lenient reader passes over it. -/
def numberedCharacter (isStrict : Bool) : Reader Text := fun text => do
  let (unit, rest) ← hexUnit text
  if isStrict then
    if isLeadingHalf unit then
      let rest ← rest.after? "\\u"
      let (other, rest) ← hexUnit rest
      if isTrailingHalf other then
        some (encode (0x10000 + (unit - 0xd800) * 0x400 + (other - 0xdc00)), rest)
      else none
    else if isTrailingHalf unit then none
    else some (encode unit, rest)
  else some ([], rest)

/-- Reads what stands behind a backslash in a string. -/
def escaped (isStrict : Bool) : Reader Text
  | [] => none
  | b :: rest =>
    if b = Byte.doubleQuote ∨ b = Byte.backslash ∨ b = Byte.slash then some ([b], rest)
    else if b = 0x62 then some ([0x08], rest)
    else if b = 0x66 then some ([Byte.formFeed], rest)
    else if b = 0x6e then some ([Byte.newline], rest)
    else if b = 0x72 then some ([Byte.carriageReturn], rest)
    else if b = 0x74 then some ([Byte.tab], rest)
    else if b = 0x75 then numberedCharacter isStrict rest
    else none

/-- Reads the rest of a string from behind its opening quote, at most `limit` characters and
escapes of it. Control characters may not stand in it. -/
def stringRest (isStrict : Bool) : (limit : Nat) → Reader Text
  | 0, _ => none
  | _, [] => none
  | limit + 1, b :: rest =>
    if b = Byte.doubleQuote then some ([], rest)
    else if b = Byte.backslash then do
      let (character, rest) ← escaped isStrict rest
      let (text, rest) ← stringRest isStrict limit rest
      some (character ++ text, rest)
    else if b < 0x20 then none
    else do
      let (text, rest) ← stringRest isStrict limit rest
      some (b :: text, rest)

def string (isStrict : Bool) : Reader Text := fun text => do
  let rest ← token? Byte.doubleQuote text
  stringRest isStrict rest.length rest

def digits (text : Text) : Text × Text :=
  (text.takeWhile Byte.isDigit, text.dropWhile Byte.isDigit)

/-- Reads the whole part of a number: a lone zero, or digits that begin with another. -/
def wholePart : Reader Text := fun text =>
  match digits text with
  | ([], _) => none
  | (first :: more, rest) =>
    if first = Byte.zero ∧ more ≠ [] then none else some (first :: more, rest)

/-- Reads the digits behind a point, if a point comes next. -/
def fraction : Reader Text := fun text =>
  match text with
  | [] => some ([], [])
  | b :: rest =>
    if b = Byte.dot then
      let (found, rest) := digits rest
      if found = [] then none else some (found, rest)
    else some ([], text)

/-- Reads a power of ten, if an `e` of either case comes next. -/
def power : Reader (Option Int) := fun text =>
  match text with
  | [] => some (none, [])
  | b :: rest =>
    if b = 0x65 ∨ b = 0x45 then
      let (isNegative, rest) :=
        match rest with
        | [] => (false, [])
        | sign :: rest' =>
          if sign = Byte.minus then (true, rest')
          else if sign = Byte.plus then (false, rest')
          else (false, rest)
      let (found, rest) := digits rest
      if found = [] then none
      else
        let value : Int := Text.digitsValue found
        some (some (if isNegative then -value else value), rest)
    else some (none, text)

end Reader

namespace Number

/-- The largest significand: the largest unsigned integer of 64 bits. -/
def greatestSignificand : Nat := 0xffffffffffffffff

/-- The distance from zero to the smallest signed integer of 64 bits. -/
def greatestNegative : Nat := 0x8000000000000000

/-- Takes digits into a significand for as long as it does not outgrow 64 bits; answers it and how
many digits it took. -/
def accumulate (significand : Nat) : Text → Nat × Nat
  | [] => (significand, 0)
  | b :: rest =>
    let next := significand * 10 + Byte.digitValue b
    if next ≤ greatestSignificand then
      let (result, count) := accumulate next rest
      (result, count + 1)
    else (significand, 0)

/-- The decimal for `significand * 10 ^ exponent`. -/
def ofScientific? (isNegative : Bool) (significand : Nat) (exponent : Int) : Option Number :=
  (Binary.ofScientific? significand exponent).map fun value =>
    let (digits, power) := value.shortest
    .decimal isNegative digits power

/-- The number that its parts spell. Without a fraction and a power of ten it is an integer if that
fits into 64 bits; but minus zero is a decimal. Digits that outgrow the significand count only for
the power of ten. -/
def ofParts? (isNegative : Bool) (whole fraction : Text) (power : Option Int) : Option Number :=
  let (start, taken) := accumulate 0 whole
  let dropped := whole.length - taken
  if fraction = [] ∧ power = none ∧ dropped = 0 then
    if ¬isNegative then some (.integer start)
    else if 0 < start ∧ start ≤ greatestNegative then some (.integer (-start))
    else ofScientific? true start 0
  else
    let (significand, places) := accumulate start fraction
    ofScientific? isNegative significand ((dropped : Int) - places + power.getD 0)

/-- Reads a number. A lenient reader takes any number that is spelled as one. -/
def reader (isStrict : Bool) : Reader Number := fun text => do
  let (isNegative, rest) :=
    match text with
    | [] => (false, [])
    | b :: rest => if b = Byte.minus then (true, rest) else (false, text)
  let (whole, rest) ← Reader.wholePart rest
  let (fraction, rest) ← Reader.fraction rest
  let (power, rest) ← Reader.power rest
  if isStrict then (ofParts? isNegative whole fraction power).map (·, rest)
  else some (.integer 0, rest)

end Number

namespace Json

mutual

/-- Reads a value that opens at most `depth` levels. The fuel bounds the number of steps; a text
needs no more of it than three times its length and one. -/
def read (isStrict : Bool) : (fuel depth : Nat) → Reader Json
  | 0, _, _ => none
  | fuel + 1, depth, text =>
    match Reader.skipGap text with
    | [] => none
    | b :: rest =>
      if b = Byte.doubleQuote then
        (Reader.stringRest isStrict rest.length rest).map fun (text, rest) => (string text, rest)
      else if b = Byte.openBracket then
        match depth with
        | 0 => none
        | depth + 1 =>
          match Reader.token? Byte.closeBracket rest with
          | some rest => some (array [], rest)
          | none => do
            let (items, rest) ← readItems isStrict fuel depth rest
            some (array items, rest)
      else if b = Byte.openBrace then
        match depth with
        | 0 => none
        | depth + 1 =>
          match Reader.token? Byte.closeBrace rest with
          | some rest => some (object [], rest)
          | none => do
            let (fields, rest) ← readFields isStrict fuel depth rest
            some (object (Table.ofList fields).entries, rest)
      else if b = Byte.minus ∨ Byte.isDigit b then
        (Number.reader isStrict (b :: rest)).map fun (value, rest) => (number value, rest)
      else
        match Text.after? (b :: rest) "null" with
        | some rest => some (null, rest)
        | none =>
          match Text.after? (b :: rest) "true" with
          | some rest => some (bool true, rest)
          | none => (Text.after? (b :: rest) "false").map (bool false, ·)

/-- Reads one or more items and the bracket behind them. -/
def readItems (isStrict : Bool) : (fuel depth : Nat) → Reader (List Json)
  | 0, _, _ => none
  | fuel + 1, depth, text => do
    let (item, rest) ← read isStrict fuel depth text
    match Reader.token? Byte.comma rest with
    | some rest =>
      let (items, rest) ← readItems isStrict fuel depth rest
      some (item :: items, rest)
    | none =>
      let rest ← Reader.token? Byte.closeBracket rest
      some ([item], rest)

/-- Reads one or more fields and the brace behind them, in the order in which they stand. -/
def readFields (isStrict : Bool) : (fuel depth : Nat) → Reader (List (Text × Json))
  | 0, _, _ => none
  | fuel + 1, depth, text => do
    let (key, rest) ← Reader.string isStrict text
    let rest ← Reader.token? Byte.colon rest
    let (value, rest) ← read isStrict fuel depth rest
    match Reader.token? Byte.comma rest with
    | some rest =>
      let (fields, rest) ← readFields isStrict fuel depth rest
      some ((key, value) :: fields, rest)
    | none =>
      let rest ← Reader.token? Byte.closeBrace rest
      some ([(key, value)], rest)

end

/-- How many levels of arrays and objects a text may open. -/
def depthLimit : Nat := 127

/-- Reads a value that opens at most `depth` levels. -/
def reader (depth : Nat) : Reader Json := fun text => read true (3 * text.length + 1) depth text

def skip : Reader Unit := fun text =>
  (read false (3 * text.length + 1) text.length text).map fun (_, rest) => ((), rest)

def textReader : Reader Text := Reader.string true

/-- Reads an object as a table; it opens at most `depth` levels. -/
def tableReader (depth : Nat) : Reader (Table Json) := fun text => do
  let (value, rest) ← reader depth text
  match value with
  | object fields => some (.ofList fields, rest)
  | _ => none

/-- The value of a text that holds one value and nothing else. -/
def ofText? {α : Type} (reader : Reader α) (text : Text) : Option α :=
  match reader text with
  | some (value, rest) => if Reader.skipGap rest = [] then some value else none
  | none => none

end Json

end BareComponent
