/-! # Bytes with a name

Every delimiter that a component source can hold is ASCII, so one byte of UTF-8 decides it. The
names here stand for those bytes, and the two small classes say which bytes can make up a plain
identifier and which are blank to a reader of ASCII alone.
-/

namespace BareComponent.Byte

abbrev tab : UInt8 := 0x09
abbrev newline : UInt8 := 0x0a
abbrev formFeed : UInt8 := 0x0c
abbrev carriageReturn : UInt8 := 0x0d
abbrev space : UInt8 := 0x20
abbrev doubleQuote : UInt8 := 0x22
abbrev dollar : UInt8 := 0x24
abbrev singleQuote : UInt8 := 0x27
abbrev openParen : UInt8 := 0x28
abbrev closeParen : UInt8 := 0x29
abbrev asterisk : UInt8 := 0x2a
abbrev plus : UInt8 := 0x2b
abbrev comma : UInt8 := 0x2c
abbrev minus : UInt8 := 0x2d
abbrev dot : UInt8 := 0x2e
abbrev slash : UInt8 := 0x2f
abbrev zero : UInt8 := 0x30
abbrev colon : UInt8 := 0x3a
abbrev semicolon : UInt8 := 0x3b
abbrev less : UInt8 := 0x3c
abbrev equals : UInt8 := 0x3d
abbrev greater : UInt8 := 0x3e
abbrev openBracket : UInt8 := 0x5b
abbrev backslash : UInt8 := 0x5c
abbrev closeBracket : UInt8 := 0x5d
abbrev underscore : UInt8 := 0x5f
abbrev backtick : UInt8 := 0x60
abbrev openBrace : UInt8 := 0x7b
abbrev closeBrace : UInt8 := 0x7d

def isDigit (b : UInt8) : Bool := 0x30 ≤ b && b ≤ 0x39

def isLetter (b : UInt8) : Bool := (0x41 ≤ b && b ≤ 0x5a) || (0x61 ≤ b && b ≤ 0x7a)

/-- Bytes that may begin a plain identifier: letters, the underscore and the dollar sign. -/
def startsIdentifier (b : UInt8) : Bool := isLetter b || b == underscore || b == dollar

/-- Bytes that may continue a plain identifier: those that may begin one, and digits. -/
def continuesIdentifier (b : UInt8) : Bool := startsIdentifier b || isDigit b

/-- ASCII blanks: space, tab, newline, form feed and carriage return, but not the vertical tab. -/
def isBlank (b : UInt8) : Bool :=
  b == space || b == tab || b == newline || b == formFeed || b == carriageReturn

/-- The bytes that follow the first one of a character in UTF-8. -/
def continuesCharacter (b : UInt8) : Bool := 0x80 ≤ b && b < 0xc0

end BareComponent.Byte
