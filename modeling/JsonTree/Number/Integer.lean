import JsonTree.Byte

/-!
Strict reading of a decimal integer: an optional sign and digits to the end. Each step is checked
against the bounds of the word it is for, and a negative number is built downwards, so that the least
one is reached too.
-/
namespace JsonTree.Integer

/-- The integers of a word. -/
structure Bounds where
  least : Int
  greatest : Int

def Bounds.contains (bounds : Bounds) (n : Int) : Bool := bounds.least ≤ n && n ≤ bounds.greatest

def signed : Bounds := ⟨-Nat.pow 2 63, Nat.pow 2 63 - 1⟩

def unsigned : Bounds := ⟨0, Nat.pow 2 64 - 1⟩

inductive Refusal where
  | empty
  | signOnly
  | invalidDigit
  | overflow
  deriving DecidableEq, Repr

/-- Digits appended to `n`, each multiplied by `unit`, which is 1 or -1. -/
def accumulate (bounds : Bounds) (unit : Int) (n : Int) : List UInt8 → Except Refusal Int
  | [] => .ok n
  | b :: rest =>
    if !Byte.isDigit b then .error .invalidDigit
    else if !bounds.contains (n * 10) then .error .overflow
    else
      let next := n * 10 + unit * Byte.digitValue b
      if !bounds.contains next then .error .overflow else accumulate bounds unit next rest

/-- Digits are required. -/
def magnitude (bounds : Bounds) (unit : Int) (digits : List UInt8) : Except Refusal Int :=
  match digits with
  | [] => .error .signOnly
  | _ => accumulate bounds unit 0 digits

def read (bounds : Bounds) (text : List UInt8) : Except Refusal Int :=
  match text with
  | [] => .error .empty
  | b :: rest =>
    if b = Byte.plus then magnitude bounds 1 rest
    else if b = Byte.minus then magnitude bounds (-1) rest
    else magnitude bounds 1 text

def text (n : Int) : List Char :=
  if n < 0 then '-' :: Nat.toDigits 10 n.natAbs else Nat.toDigits 10 n.natAbs

end JsonTree.Integer
