import JsonTree.Value

/-!
Equality of trees. Members are compared in order, and floats as numbers: a NaN differs from itself
and the two zeros are equal, so this is not the equality of the logic.
-/
namespace JsonTree.Value

mutual

def beq : Value → Value → Bool
  | string s, string t => s == t
  | int m, int n => m == n
  | float x, float y => x == y
  | literal s, literal t => s == t
  | array xs, array ys => beqItems xs ys
  | object xs, object ys => beqMembers xs ys
  | bool a, bool b => a == b
  | null, null => true
  | _, _ => false

def beqItems : List Value → List Value → Bool
  | [], [] => true
  | x :: xs, y :: ys => x.beq y && beqItems xs ys
  | _, _ => false

def beqMembers : List (String × Value) → List (String × Value) → Bool
  | [], [] => true
  | (k, x) :: xs, (l, y) :: ys => k == l && x.beq y && beqMembers xs ys
  | _, _ => false

end

instance : BEq Value := ⟨beq⟩

end JsonTree.Value
