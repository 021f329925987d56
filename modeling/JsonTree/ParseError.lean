/-!
Why a text is refused: the cause, the byte that shows it and where that byte stands. Only the first
failure of a reading is reported.
-/
namespace JsonTree

inductive ErrorKind where
  /-- A Unicode escape ends before its four hex digits. -/
  | truncatedEscape
  /-- A surrogate escape stands alone or beside the wrong half. -/
  | unpairedSurrogate
  /-- A hex digit is required, or a hex literal exceeds 64 bits. -/
  | invalidHex
  /-- A string holds a NUL before its closing quote. -/
  | nulInString
  | invalidNumber
  /-- No value begins with this byte. -/
  | noValue
  | invalidBool
  | truncatedKeyword
  /-- The document does not open with a container. -/
  | rootNotContainer
  | invalidNull
  | unknownEscape
  | invalidUtf8
  /-- A quote, a colon, a comma or a closing bracket is required. -/
  | unexpectedByte
  /-- Something other than whitespace follows the root. -/
  | trailingBytes
  | tooDeep
  | endOfInput
  deriving DecidableEq, Repr

namespace ErrorKind

/-- The codes are distinct bits, so that a set of kinds fits a word. -/
def code : ErrorKind → Nat
  | truncatedEscape => 0x1
  | unpairedSurrogate => 0x2
  | invalidHex => 0x4
  | nulInString => 0x8
  | invalidNumber => 0x10
  | noValue => 0x80
  | invalidBool => 0x100
  | truncatedKeyword => 0x400
  | rootNotContainer => 0x800
  | invalidNull => 0x1000
  | unknownEscape => 0x2000
  | invalidUtf8 => 0x4000
  | unexpectedByte => 0x8000
  | trailingBytes => 0x10000
  | tooDeep => 0x20000
  | endOfInput => 0x10000000

def name : ErrorKind → String
  | truncatedEscape => "InvalidUtf16"
  | unpairedSurrogate => "InvalidUtf16Surrogate"
  | invalidHex => "InvalidHex"
  | nulInString => "InvalidStringNotTerminated"
  | invalidNumber => "InvalidNumber"
  | noValue => "InvalidJsonTypeChar"
  | invalidBool => "InvalidBool"
  | truncatedKeyword => "CannotAdvance"
  | rootNotContainer => "CannotStartParse"
  | invalidNull => "InvalidNull"
  | unknownEscape => "InvalidEscape"
  | invalidUtf8 => "InvalidUtf8"
  | unexpectedByte => "UnexpectedCharacter"
  | trailingBytes => "TrailingCharacters"
  | tooDeep => "MaxDepthReached"
  | endOfInput => "Eof"

def all : List ErrorKind :=
  [truncatedEscape, unpairedSurrogate, invalidHex, nulInString, invalidNumber, noValue,
    invalidBool, truncatedKeyword, rootNotContainer, invalidNull, unknownEscape, invalidUtf8,
    unexpectedByte, trailingBytes, tooDeep, endOfInput]

def ofName? (name : String) : Option ErrorKind := all.find? fun kind => kind.name == name

end ErrorKind

/-- The byte is 0 where the failure is the end of the text. -/
structure ParseError where
  kind : ErrorKind
  byte : UInt8
  offset : Nat
  deriving DecidableEq, Repr

namespace ParseError

/-- Printable ASCII stands for itself, any other byte is given by two hex digits. -/
def shown (b : UInt8) : String :=
  if 0x20 ≤ b ∧ b ≤ 0x7E then String.ofList [Char.ofUInt8 b]
  else String.ofList ['\\', 'x', (b.toNat / 16).digitChar, (b.toNat % 16).digitChar]

def message (e : ParseError) : String :=
  let found := shown e.byte
  let place := e.offset.repr
  match e.kind with
  | .truncatedEscape =>
    "Unexpected UTF16 character '" ++ found ++ "' while parsing UTF16 at position: " ++ place
  | .unpairedSurrogate =>
    "Unexpected UTF16 surrogate character '" ++ found ++ "' while parsing UTF16 at position: "
      ++ place
  | .invalidHex => "Unexpected hex '" ++ found ++ "' at position: " ++ place
  | .nulInString =>
    "Expected '\"' to terminate string received '" ++ found ++ "' at position: " ++ place
  | .invalidNumber =>
    "Unexpected numeric character '" ++ found ++ "' while parsing number at position: " ++ place
  | .noValue =>
    "Unexpected character '" ++ found ++ "' while seeking next type to parse at position: "
      ++ place
  | .invalidBool =>
    "Unexpected character '" ++ found ++ "' while parsing boolean at position: " ++ place
  | .invalidNull =>
    "Unexpected character '" ++ found ++ "' while parsing null at position: " ++ place
  | .unknownEscape =>
    "Unexpected escape character '" ++ found ++ "' while parsing string at position: " ++ place
  | .invalidUtf8 => "Invalid UTF-8 in string starting at position: " ++ place
  | .rootNotContainer => "JSON must start with '[' or '\x7b', at position: " ++ place
  | .unexpectedByte =>
    "Expected ',' or closing bracket, received '" ++ found ++ "' at position: " ++ place
  | .trailingBytes =>
    "Unexpected character '" ++ found ++ "' after end of document at position: " ++ place
  | .tooDeep => "Maximum nesting depth exceeded at position: " ++ place
  | .truncatedKeyword | .endOfInput => "Unexpected end of json buffer at position: " ++ place

/-- The one-line form for logs. -/
def brief (e : ParseError) : String :=
  e.kind.name ++ "(" ++ shown e.byte ++ ") at " ++ e.offset.repr

end ParseError

end JsonTree
