import JsonTree.Byte
import JsonTree.Input

/-!
The parts of a number literal, the text they make and the reading of that text. A literal is a hex
integer or a decimal with an optional fraction and exponent; leading zeros are refused, a plus sign,
a bare point at either end of the digits and either case of a letter are not.
-/
namespace JsonTree

inductive Sign where
  | none
  | plus
  | minus
  deriving DecidableEq, Repr

namespace Sign

def text : Sign → List UInt8
  | none => []
  | plus => [Byte.plus]
  | minus => [Byte.minus]

/-- A leading sign and what follows it. -/
def split (bytes : List UInt8) : Sign × List UInt8 :=
  match bytes with
  | [] => (none, [])
  | b :: rest =>
    if b = Byte.minus then (minus, rest) else if b = Byte.plus then (plus, rest) else (none, bytes)

def apply (sign : Sign) (n : Int) : Int := if sign = minus then -n else n

end Sign

/-- `e` or `E`, and the power of ten. -/
structure Exponent where
  mark : UInt8
  sign : Sign
  digits : List UInt8
  deriving DecidableEq, Repr

structure DecimalLiteral where
  sign : Sign
  whole : List UInt8
  point : Bool
  fraction : List UInt8
  exponent : Option Exponent
  deriving DecidableEq, Repr

/-- `mark` is `x` or `X`. -/
structure HexLiteral where
  sign : Sign
  mark : UInt8
  digits : List UInt8
  deriving DecidableEq, Repr

inductive Literal where
  | hex (h : HexLiteral)
  | decimal (d : DecimalLiteral)
  deriving DecidableEq, Repr

namespace Exponent

def text (e : Exponent) : List UInt8 := e.mark :: e.sign.text ++ e.digits

/-- An exponent, if a mark comes first, and what follows its digits. -/
def split (bytes : List UInt8) : Option Exponent × List UInt8 :=
  match bytes with
  | [] => (none, [])
  | b :: rest =>
    if b = Byte.lowerE || b = Byte.upperE then
      let (sign, power) := Sign.split rest
      (some ⟨b, sign, power.takeWhile Byte.isDigit⟩, power.dropWhile Byte.isDigit)
    else (none, bytes)

end Exponent

namespace DecimalLiteral

def significandText (d : DecimalLiteral) : List UInt8 :=
  d.sign.text ++ d.whole ++ (if d.point then [Byte.point] else []) ++ d.fraction

def text (d : DecimalLiteral) : List UInt8 :=
  d.significandText ++ (d.exponent.map Exponent.text).getD []

/-- Reads what follows the sign of a literal of `length` bytes. A byte out of place is reported where
it stands, a missing digit at the end, and a leading zero by the digit after it. -/
def read (length : Nat) (sign : Sign) (body : List UInt8) : Except Fault DecimalLiteral :=
  let whole := body.takeWhile Byte.isDigit
  let afterWhole := body.dropWhile Byte.isDigit
  let point := afterWhole.head? == some Byte.point
  let afterPoint := if point then afterWhole.drop 1 else afterWhole
  let fraction := afterPoint.takeWhile Byte.isDigit
  let afterFraction := afterPoint.dropWhile Byte.isDigit
  if whole.isEmpty && fraction.isEmpty then
    .error ⟨.invalidNumber, length - afterFraction.length⟩
  else
    let (exponent, left) := Exponent.split afterFraction
    if !left.isEmpty then .error ⟨.invalidNumber, length - left.length⟩
    else if exponent.any (·.digits.isEmpty) then .error ⟨.invalidNumber, length⟩
    else if whole.length > 1 && whole.head? == some Byte.zero then
      .error ⟨.invalidNumber, length - body.length + 1⟩
    else .ok ⟨sign, whole, point, fraction, exponent⟩

end DecimalLiteral

namespace HexLiteral

def text (h : HexLiteral) : List UInt8 := h.sign.text ++ Byte.zero :: h.mark :: h.digits

/-- The digits of a body that opens with `0x`, with the letter. -/
def split? (body : List UInt8) : Option (UInt8 × List UInt8) :=
  match body with
  | z :: mark :: digits =>
    if z = Byte.zero && (mark = Byte.lowerX || mark = Byte.upperX) then some (mark, digits)
    else none
  | _ => none

/-- Bytes that have a place in a decimal literal but none among hex digits. -/
def isMisplaced (b : UInt8) : Bool :=
  b == Byte.point || b == Byte.lowerX || b == Byte.upperX || b == Byte.plus || b == Byte.minus

def read (length : Nat) (sign : Sign) (mark : UInt8) (digits : List UInt8) :
    Except Fault HexLiteral :=
  match digits.dropWhile Byte.isHexDigit with
  | b :: left =>
    let kind := if isMisplaced b then .invalidNumber else .invalidHex
    .error ⟨kind, length - (b :: left).length⟩
  | [] => if digits.isEmpty then .error ⟨.invalidHex, length⟩ else .ok ⟨sign, mark, digits⟩

end HexLiteral

namespace Literal

def text : Literal → List UInt8
  | hex h => h.text
  | decimal d => d.text

def read (bytes : List UInt8) : Except Fault Literal :=
  let (sign, body) := Sign.split bytes
  match HexLiteral.split? body with
  | some (mark, digits) => (HexLiteral.read bytes.length sign mark digits).map hex
  | none => (DecimalLiteral.read bytes.length sign body).map decimal

end Literal

end JsonTree
