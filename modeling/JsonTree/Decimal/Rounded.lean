import JsonTree.Decimal

/-! A float rounded to seventeen significant digits, a half going to the even neighbour. -/
namespace JsonTree.Decimal

def leastSeventeen : Nat := Nat.pow 10 16

def hasSeventeenDigits (n : Nat) : Bool := leastSeventeen ≤ n && n < 10 * leastSeventeen

/-- The quotient, to the nearest integer. -/
def roundDiv (n m : Nat) : Nat :=
  let q := n / m
  let r := n % m
  if 2 * r < m ∨ (2 * r = m ∧ q % 2 = 0) then q else q + 1

/-- The coarsest grid on which the value has seventeen digits, from `10^k` down. -/
def seventeenPlaces (b : Binary) (k : Int) : (steps : Nat) → Int
  | 0 => k
  | steps + 1 =>
    if leastSeventeen ≤ b.scaled k / b.one k then k else seventeenPlaces b (k - 1) steps

def rounded (x : Float) : Decimal :=
  let b := Binary.ofFloat x
  if b.mantissa = 0 then ⟨0, 0⟩
  else
    let k := seventeenPlaces b (b.powerAbove - 17) 4
    let n := roundDiv (b.scaled k) (b.one k)
    if n < 10 * leastSeventeen then ⟨n, k⟩ else ⟨leastSeventeen, k + 1⟩

end JsonTree.Decimal
