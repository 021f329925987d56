import JsonTree.Number.Integer
import JsonTree.Number.Literal
import JsonTree.Number.PowerOfTen
import JsonTree.Value

/-!
The value of a number literal. A decimal without a point stays an integer when it fits 64 bits, also
after scaling by an exponent that is not negative; all others become floats. Of those the first
eighteen significant digits count, as two halves of nine that are exact in a float.
-/
namespace JsonTree

def decimalValue (digits : List UInt8) : Nat :=
  digits.foldl (fun n b => n * 10 + Byte.digitValue b) 0

namespace Exponent

/-- Digits past this value are ignored, so that no run of digits exceeds a word. -/
def limit : Nat := (Nat.pow 2 31 - 1) / 100

def cappedMagnitude (digits : List UInt8) : Nat :=
  digits.foldl (fun n b => if n < limit then n * 10 + Byte.digitValue b else n) 0

def capped (e : Exponent) : Int := e.sign.apply (cappedMagnitude e.digits)

/-- The exponent as written. -/
def exact (e : Exponent) : Int := e.sign.apply (decimalValue e.digits)

end Exponent

namespace DecimalLiteral

def significantLimit : Nat := 18

def chunk : Nat := 9

/-- The greatest distance of the last significant digit from the point. -/
def exponentLimit : Nat := 511

def digits (d : DecimalLiteral) : List UInt8 := d.whole ++ d.fraction

def significant (d : DecimalLiteral) : List UInt8 := d.digits.dropWhile (· == Byte.zero)

/-- The digits that count towards a float. -/
def leading (d : DecimalLiteral) : List UInt8 := d.significant.take significantLimit

/-- The power of ten of the last digit that counts. -/
def scaleOf (d : DecimalLiteral) (exponent : Int) : Int :=
  d.whole.length - (d.digits.length - d.significant.length : Nat) - d.leading.length + exponent

def highHalf (d : DecimalLiteral) : Nat := decimalValue (d.leading.take (d.leading.length - chunk))

def lowHalf (d : DecimalLiteral) : Nat := decimalValue (d.leading.drop (d.leading.length - chunk))

def leadingFloat (d : DecimalLiteral) : Float :=
  1.0e9 * d.highHalf.toUInt64.toFloat + d.lowHalf.toUInt64.toFloat

/-- A literal out of range is reported at its exponent, or at its start where it has none. -/
def outOfRange (d : DecimalLiteral) : Fault :=
  ⟨.invalidNumber, if d.exponent.isSome then d.significandText.length else 0⟩

/-- The literal read as a float under the given exponent. Zeros keep their sign. -/
def float (d : DecimalLiteral) (exponent : Int) : Except Fault Float :=
  let signed := fun (x : Float) => if d.sign = .minus then -x else x
  if d.significant.isEmpty then .ok (signed 0.0)
  else if (d.scaleOf exponent).natAbs > exponentLimit then .error d.outOfRange
  else
    let magnitude := PowerOfTen.scale d.leadingFloat (d.scaleOf exponent)
    if magnitude.isFinite then .ok (signed magnitude) else .error d.outOfRange

/-- The greatest power of ten that fits 64 bits with a sign is `10^18`. -/
def greatestPower : Nat := 18

/-- The integer that a literal denotes under the given exponent, if it has no point and fits. The
power of ten has to fit too, whatever it is multiplied by. -/
def int? (d : DecimalLiteral) (exponent : Int) : Option Int :=
  if d.point || exponent < 0 || exponent > greatestPower then none
  else match Integer.read Integer.signed (d.sign.text ++ d.whole) with
    | .error _ => none
    | .ok n =>
      let scaled := n * Nat.pow 10 exponent.toNat
      if Integer.signed.contains scaled then some scaled else none

def valueAt (d : DecimalLiteral) (exponent : Int) : Except Fault Value :=
  match d.int? exponent with
  | some n => .ok (.int (Int64.ofInt n))
  | none => (d.float exponent).map .float

def value (d : DecimalLiteral) : Except Fault Value :=
  d.valueAt ((d.exponent.map Exponent.capped).getD 0)

end DecimalLiteral

namespace HexLiteral

/-- Digits appended to `n`, as long as the result fits 64 bits without a sign. -/
def accumulate (n : Nat) : List UInt8 → Option Nat
  | [] => some n
  | b :: rest =>
    let next := n * 16 + Byte.hexValue b
    if next < Nat.pow 2 64 then accumulate next rest else none

def int? (h : HexLiteral) : Option Int :=
  match accumulate 0 h.digits with
  | none => none
  | some n =>
    let n := h.sign.apply n
    if Integer.signed.contains n then some n else none

/-- A literal that does not fit is reported at its first digit. -/
def value (h : HexLiteral) : Except Fault Value :=
  match h.int? with
  | some n => .ok (.int (Int64.ofInt n))
  | none => .error ⟨.invalidHex, h.sign.text.length + 2⟩

end HexLiteral

namespace Literal

def value : Literal → Except Fault Value
  | hex h => h.value
  | decimal d => d.value

end Literal

namespace Number

/-- A literal is ASCII, so each byte of it is a character. -/
def literalText (bytes : List UInt8) : String := String.ofList (bytes.map Char.ofUInt8)

/-- Reads a literal in full and decodes it, or keeps its text. -/
def decodeValidated (asText : Bool) (bytes : List UInt8) : Except Fault Value :=
  match Literal.read bytes with
  | .error f => .error f
  | .ok l => if asText then .ok (.literal (literalText bytes)) else l.value

/-- Most literals are one digit, which needs no further look. -/
def decode (asText : Bool) (bytes : List UInt8) : Except Fault Value :=
  match bytes with
  | [b] =>
    if Byte.isDigit b then
      .ok (if asText then .literal (literalText bytes) else .int (Int64.ofNat (Byte.digitValue b)))
    else decodeValidated asText bytes
  | _ => decodeValidated asText bytes

/-- Reads the literal at the start of the input, up to its delimiter. A failure shows the byte of the
literal itself, so one at its end shows 0 whatever follows. -/
def read (asText : Bool) (input : Input) : Except ParseError (Value × Input) :=
  let literal := input.bytes.takeWhile (!Byte.endsNumber ·)
  match decode asText literal with
  | .error f => .error (f.locate ⟨input.offset, literal⟩)
  | .ok v => .ok (v, input.skip literal.length)

/-- An empty literal is refused, so a number takes at least one byte. -/
theorem length_read_lt {asText : Bool} {input rest : Input} {v : Value}
    (h : read asText input = .ok (v, rest)) :
    rest.bytes.length < input.bytes.length := by
  simp only [read] at h
  split at h
  · contradiction
  · rename_i decoded
    cases h
    have taken := (List.takeWhile_sublist (!Byte.endsNumber ·) (l := input.bytes)).length_le
    have some_byte : input.bytes.takeWhile (!Byte.endsNumber ·) ≠ [] := by
      intro none_left
      rw [none_left] at decoded
      cases decoded
    have some_length := List.length_pos_iff.2 some_byte
    simp only [Input.length_skip]
    omega

end Number

def parseNumber (bytes : List UInt8) : Except ParseError Value :=
  match Number.read false (.ofBytes bytes) with
  | .error e => .error e
  | .ok (v, rest) => if rest.bytes.isEmpty then .ok v else .error (rest.fail .trailingBytes)

end JsonTree
