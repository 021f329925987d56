import JsonTree.Decimal

/-!
The shortest decimal that rounds to a float. On the grid of the multiples of `10^k` only the two
neighbours of the value matter; going down from a coarse grid, the first one with a neighbour between
the midpoints to the adjacent floats gives the fewest digits.
-/
namespace JsonTree.Decimal

/-- A decimal rounds to the float when it lies between the midpoints to the adjacent floats. The
midpoints themselves round to an even mantissa. Below a power of two the floats lie twice as close. -/
def roundsTo (b : Binary) (k : Int) (d : Nat) : Bool :=
  let below := if b.mantissa = Binary.leadingBit then 1 else 2
  let least := (4 * b.mantissa - below) * b.quarter k
  let greatest := (4 * b.mantissa + 2) * b.quarter k
  let x := d * b.one k
  if b.mantissa % 2 = 0 then least ≤ x && x ≤ greatest else least < x && x < greatest

/-- The nearer of the two neighbours that rounds to the float. A tie goes up. -/
def neighbour? (b : Binary) (k : Int) : Option Nat :=
  let d := b.scaled k / b.one k
  match roundsTo b k d, roundsTo b k (d + 1) with
  | true, true =>
    if b.scaled k - d * b.one k < (d + 1) * b.one k - b.scaled k then some d else some (d + 1)
  | true, false => some d
  | false, true => some (d + 1)
  | false, false => none

/-- The first grid with a hit, from `10^k` down through `steps` finer ones. -/
def firstHit (b : Binary) (k : Int) : (steps : Nat) → Decimal
  | 0 => ⟨b.scaled k / b.one k, k⟩
  | steps + 1 =>
    match neighbour? b k with
    | some d => ⟨d, k⟩
    | none => firstHit b (k - 1) steps

/-- The fewest digits for the magnitude of a float. Seventeen always suffice. -/
def shortest (x : Float) : Decimal :=
  let b := Binary.ofFloat x
  if b.mantissa = 0 then ⟨0, 0⟩ else firstHit b b.powerAbove 21

end JsonTree.Decimal
