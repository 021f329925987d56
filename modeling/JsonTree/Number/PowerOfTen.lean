/-!
Scaling a float by a power of ten. Powers up to `10^308` are the nearest floats; beyond that one step
of 308 follows another, which keeps results below the normal range within reach and lets the others
overflow to infinity.
-/
namespace JsonTree.PowerOfTen

def largest : Nat := 308

/-- The float nearest to `10^n`, infinity where there is none. -/
def float (n : Nat) : Float :=
  if n ≤ largest then Float.ofScientific 1 false n else Float.ofBits 0x7FF0000000000000

/-- A negative power divides by the positive one. -/
def step (e : Int) (n : Nat) (x : Float) : Float := if e < 0 then x / float n else x * float n

/-- Full steps first, then what is left of the exponent. -/
def scale (x : Float) (e : Int) : Float :=
  let n := e.natAbs
  let y := Nat.repeat (step e largest) (n / largest) x
  if n % largest = 0 then y else step e (n % largest) y

end JsonTree.PowerOfTen
