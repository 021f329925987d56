/-!
Exact decimals and the exact value of a float. A finite float is `mantissa · 2^exponent`, and on the
grid of the multiples of `10^k` it is a fraction of natural numbers, so all comparisons are exact.
-/
namespace JsonTree

/-- `digits · 10^exponent`. -/
structure Decimal where
  digits : Nat
  exponent : Int
  deriving DecidableEq, Repr

/-- `mantissa · 2^exponent`. -/
structure Binary where
  mantissa : Nat
  exponent : Int
  deriving DecidableEq, Repr

namespace Binary

/-- The least mantissa with a leading bit. -/
def leadingBit : Nat := Nat.pow 2 52

/-- The magnitude of a finite float. An exponent field of 0 has no leading bit and the same place
value as a field of 1. -/
def ofFloat (x : Float) : Binary :=
  let bits : Nat := x.toBits.toNat
  let fraction : Nat := bits % leadingBit
  let field : Nat := bits / leadingBit % Nat.pow 2 11
  if field = 0 then ⟨fraction, -1074⟩ else ⟨leadingBit + fraction, (field : Int) - 1075⟩

/-- A quarter of the last binary place is `quarter k / one k` steps of `10^k`. -/
def quarter (b : Binary) (k : Int) : Nat :=
  Nat.pow 2 (b.exponent - 2).toNat * Nat.pow 10 (-k).toNat

def one (b : Binary) (k : Int) : Nat := Nat.pow 2 (2 - b.exponent).toNat * Nat.pow 10 k.toNat

/-- The number of steps of `10^k`, times `one k`. -/
def scaled (b : Binary) (k : Int) : Nat := 4 * b.mantissa * b.quarter k

/-- A power of ten above the value and at most three above its first digit. The factor is a little
less than the logarithm of 2. -/
def powerAbove (b : Binary) : Int := ((b.mantissa.log2 : Int) + 1 + b.exponent) * 1233 / 4096 + 2

end Binary

end JsonTree
