/-! Bytes with a meaning in a JSON text, and the classes the reader sorts bytes into. -/
namespace JsonTree.Byte

abbrev nul : UInt8 := 0x00
abbrev space : UInt8 := 0x20
abbrev quote : UInt8 := 0x22
abbrev star : UInt8 := 0x2A
abbrev plus : UInt8 := 0x2B
abbrev comma : UInt8 := 0x2C
abbrev minus : UInt8 := 0x2D
abbrev point : UInt8 := 0x2E
abbrev zero : UInt8 := 0x30
abbrev colon : UInt8 := 0x3A
abbrev upperE : UInt8 := 0x45
abbrev upperX : UInt8 := 0x58
abbrev openBracket : UInt8 := 0x5B
abbrev backslash : UInt8 := 0x5C
abbrev closeBracket : UInt8 := 0x5D
abbrev lowerE : UInt8 := 0x65
abbrev lowerF : UInt8 := 0x66
abbrev lowerN : UInt8 := 0x6E
abbrev lowerT : UInt8 := 0x74
abbrev lowerU : UInt8 := 0x75
abbrev lowerX : UInt8 := 0x78
abbrev openBrace : UInt8 := 0x7B
abbrev closeBrace : UInt8 := 0x7D

/-- Tab, newline, vertical tab, form feed, carriage return and space. -/
def isWhitespace (b : UInt8) : Bool := (0x09 ≤ b && b ≤ 0x0D) || b == space

def isDigit (b : UInt8) : Bool := 0x30 ≤ b && b ≤ 0x39

def isHexDigit (b : UInt8) : Bool :=
  isDigit b || (0x41 ≤ b && b ≤ 0x46) || (0x61 ≤ b && b ≤ 0x66)

def digitValue (b : UInt8) : Nat := b.toNat - 0x30

def hexValue (b : UInt8) : Nat :=
  if b ≤ 0x39 then b.toNat - 0x30 else if b ≤ 0x46 then b.toNat - 0x37 else b.toNat - 0x57

/-- The bytes that a number literal can open with. -/
def startsNumber (b : UInt8) : Bool := isDigit b || b == minus || b == plus || b == point

/-- A literal runs up to the first of these, so `1 }` and `1]` end it alike. A NUL ends it too. -/
def endsNumber (b : UInt8) : Bool :=
  b == comma || b == closeBracket || b == nul || isWhitespace b || b == closeBrace

end JsonTree.Byte
