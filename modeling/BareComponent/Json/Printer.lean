import BareComponent.Json.Value

/-! # Printing JSON

A string is printed with the short escapes where there are some, with `\u` and four digits for the
other control characters, and all else as it is. Values are printed without any space, or indented
by two spaces a level with each item and field on a line of its own.
-/

namespace BareComponent

/-- The lower-case hexadecimal digit of a number below sixteen. -/
def Byte.ofHexDigit (digit : Nat) : UInt8 :=
  if digit < 10 then Byte.ofDigit digit else 0x61 + (digit - 10).toUInt8

/-- A byte of a string as it is printed between quotes. -/
def Byte.quoted (b : UInt8) : Text :=
  if b = doubleQuote ∨ b = backslash then [backslash, b]
  else if b = 0x08 then "\\b"
  else if b = tab then "\\t"
  else if b = newline then "\\n"
  else if b = formFeed then "\\f"
  else if b = carriageReturn then "\\r"
  else if b < 0x20 then
    Text.ofString "\\u00" ++ [ofHexDigit (b.toNat / 16), ofHexDigit (b.toNat % 16)]
  else [b]

def Text.quoted (text : Text) : Text :=
  Byte.doubleQuote :: text.flatMap Byte.quoted ++ [Byte.doubleQuote]

/-- Positional notation reaches from `0.00001` to below `10 ^ 16`; beyond, one digit stands before
the point and a power of ten follows, with its sign in either case. -/
def Number.decimalText (digits : Nat) (exponent : Int) : Text :=
  let text := Text.ofNat digits
  let point : Int := text.length + exponent
  if digits = 0 then "0.0"
  else if 0 ≤ exponent ∧ point ≤ 16 then
    text ++ List.replicate exponent.toNat Byte.zero ++ Text.ofString ".0"
  else if 0 < point ∧ point ≤ 16 then
    text.take point.toNat ++ [Byte.dot] ++ text.drop point.toNat
  else if -5 < point ∧ point ≤ 0 then
    Text.ofString "0." ++ List.replicate (-point).toNat Byte.zero ++ text
  else
    let fraction := if text.length = 1 then [] else Byte.dot :: text.drop 1
    let sign := if 1 ≤ point then [Byte.plus] else []
    text.take 1 ++ fraction ++ Text.ofString "e" ++ sign ++ Text.ofInt (point - 1)

def Number.print : Number → Text
  | .integer value => Text.ofInt value
  | .decimal isNegative digits exponent =>
    (if isNegative then [Byte.minus] else []) ++ decimalText digits exponent

namespace Json

mutual

def print : Json → Text
  | null => "null"
  | bool true => "true"
  | bool false => "false"
  | number value => value.print
  | string value => value.quoted
  | array items => Byte.openBracket :: printItems items ++ [Byte.closeBracket]
  | object fields => Byte.openBrace :: printFields fields ++ [Byte.closeBrace]

/-- The items of an array, with commas between them. -/
def printItems : List Json → Text
  | [] => []
  | [item] => print item
  | item :: items => print item ++ Byte.comma :: printItems items

/-- The fields of an object, with commas between them. -/
def printFields : List (Text × Json) → Text
  | [] => []
  | [(key, value)] => key.quoted ++ Byte.colon :: print value
  | (key, value) :: fields =>
    key.quoted ++ Byte.colon :: print value ++ Byte.comma :: printFields fields

end

def lineBreak (level : Nat) : Text := Byte.newline :: List.replicate (2 * level) Byte.space

mutual

/-- A value whose first line stands at an indentation level. -/
def printAt (level : Nat) : Json → Text
  | null => "null"
  | bool true => "true"
  | bool false => "false"
  | number value => value.print
  | string value => value.quoted
  | array [] => "[]"
  | array (item :: items) =>
    Byte.openBracket :: lineBreak (level + 1) ++ printAt (level + 1) item ++
      printItemsAt (level + 1) items ++ lineBreak level ++ [Byte.closeBracket]
  | object [] => [Byte.openBrace, Byte.closeBrace]
  | object ((key, value) :: fields) =>
    Byte.openBrace :: lineBreak (level + 1) ++ key.quoted ++ [Byte.colon, Byte.space] ++
      printAt (level + 1) value ++ printFieldsAt (level + 1) fields ++ lineBreak level ++
      [Byte.closeBrace]

/-- The items of an array after its first, each on a new line behind a comma. -/
def printItemsAt (level : Nat) : List Json → Text
  | [] => []
  | item :: items =>
    Byte.comma :: lineBreak level ++ printAt level item ++ printItemsAt level items

/-- The fields of an object after its first, each on a new line behind a comma. -/
def printFieldsAt (level : Nat) : List (Text × Json) → Text
  | [] => []
  | (key, value) :: fields =>
    Byte.comma :: lineBreak level ++ key.quoted ++ [Byte.colon, Byte.space] ++
      printAt level value ++ printFieldsAt level fields

end

def pretty (value : Json) : Text := printAt 0 value

end Json

end BareComponent
