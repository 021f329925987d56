import JsonTree.Decimal.Rounded
import JsonTree.Decimal.Shortest
import JsonTree.Number.Decode
import JsonTree.Text.Utf8

/-!
The text of a float. It holds a point, so that it reads as a float again. The shortest text is taken
if the decoder reads it back exactly; the decoder does not round every literal correctly, so failing
that the seventeen-digit neighbours of the value are tried, nearest first.
-/
namespace JsonTree.FloatText

/-- Floats from here on are written with an exponent. -/
def tooGreat : Float := 1.0e16

/-- Floats below, other than zeros, are written with an exponent. -/
def tooSmall : Float := 1.0e-5

def isScientific (x : Float) : Bool := tooGreat ≤ x.abs || (x.abs != 0.0 && x.abs < tooSmall)

def isNegative (x : Float) : Bool := Nat.pow 2 63 ≤ x.toBits.toNat

def signText (x : Float) : List Char := if isNegative x then ['-'] else []

def padded (width n : Nat) : List Char :=
  let digits := Nat.toDigits 10 n
  List.replicate (width - digits.length) '0' ++ digits

/-- Digits after a point, of which there is at least one. -/
def afterPoint (digits : List Char) : List Char := if digits.isEmpty then ['0'] else digits

def positional (d : Decimal) : List Char :=
  let places := (-d.exponent).toNat
  let whole := d.digits * Nat.pow 10 d.exponent.toNat / Nat.pow 10 places
  let fraction := if places = 0 then [] else padded places (d.digits % Nat.pow 10 places)
  Nat.toDigits 10 whole ++ '.' :: afterPoint fraction

/-- One digit before the point. -/
def scientific (d : Decimal) : List Char :=
  let digits := Nat.toDigits 10 d.digits
  let exponent := d.exponent + (digits.length - 1 : Nat)
  digits.take 1 ++ '.' :: afterPoint (digits.drop 1) ++ 'e' :: Integer.text exponent

def shortest (x : Float) : List Char :=
  let d := Decimal.shortest x
  signText x ++ if isScientific x then scientific d else positional d

def readBack (text : List Char) : Option Float :=
  match parseNumber (Utf8.ofChars text) with
  | .ok (.float x) => some x
  | _ => none

def readsBack (x : Float) (text : List Char) : Bool :=
  match readBack text with
  | some y => y.toBits == x.toBits
  | none => false

/-- Steps of the last digit that are tried to either side. -/
def reach : Nat := 64

/-- Seventeen-digit numbers around `n`, nearest first and the lower of two first. -/
def candidates (n : Nat) : List Nat :=
  ((List.range (reach + 1)).flatMap fun step =>
    (if step ≤ n then [n - step] else []) ++ [n + step]).filter Decimal.hasSeventeenDigits

/-- The text of a seventeen-digit number as the digits of `x`, whose first digit counts
`10^exponent`. -/
def candidateText (x : Float) (exponent : Int) (n : Nat) : List Char :=
  signText x ++ Nat.toDigits 10 (n / Decimal.leastSeventeen) ++
    '.' :: padded 16 (n % Decimal.leastSeventeen) ++ 'e' :: Integer.text exponent

/-- The first candidate that reads back as `x`, or else the first of those that read back closest to
it. `best` is the closest one before these. -/
def search (x : Float) (exponent : Int) (best : Option (Float × List Char)) :
    List Nat → Option (List Char)
  | [] => best.map (·.2)
  | n :: rest =>
    let text := candidateText x exponent n
    match readBack text with
    | none => search x exponent best rest
    | some y =>
      if y.toBits == x.toBits then some text
      else
        let distance := (y - x).abs
        let closer := match best with
          | none => true
          | some (least, _) => distance < least
        search x exponent (if closer then some (distance, text) else best) rest

def nearby (x : Float) : Option (List Char) :=
  let d := Decimal.rounded x
  search x (d.exponent + 16) none (candidates d.digits)

/-- A float that is not finite has no number to stand for it. -/
def text (x : Float) : List Char :=
  if !x.isFinite then ['n', 'u', 'l', 'l']
  else if readsBack x (shortest x) then shortest x
  else (nearby x).getD (shortest x)

end JsonTree.FloatText
