import JsonTree.Value

/-!
Taking a tree apart node by node, with the nodes still to be freed on an explicit stack, so that
depth costs no call stack. The number of nodes pending, with all below them, falls with each step.
-/
namespace JsonTree.Value

mutual

/-- The node itself and all nodes below it. -/
def nodeCount : Value → Nat
  | array items => 1 + nodeCountItems items
  | object members => 1 + nodeCountMembers members
  | _ => 1

def nodeCountItems : List Value → Nat
  | [] => 0
  | v :: rest => v.nodeCount + nodeCountItems rest

def nodeCountMembers : List (String × Value) → Nat
  | [] => 0
  | (_, v) :: rest => v.nodeCount + nodeCountMembers rest

end

def children : Value → List Value
  | array items => items
  | object members => members.map (·.2)
  | _ => []

theorem nodeCountMembers_eq (members : List (String × Value)) :
    nodeCountMembers members = nodeCountItems (members.map (·.2)) := by
  induction members with
  | nil => rfl
  | cons m rest ih => simp [nodeCountMembers, nodeCountItems, ih]

theorem nodeCount_eq (v : Value) : v.nodeCount = 1 + nodeCountItems v.children := by
  cases v <;> simp [nodeCount, children, nodeCountItems, nodeCountMembers_eq]

theorem nodeCountItems_append (xs ys : List Value) :
    nodeCountItems (xs ++ ys) = nodeCountItems xs + nodeCountItems ys := by
  induction xs with
  | nil => simp [nodeCountItems]
  | cons x xs ih => simp [nodeCountItems, ih, Nat.add_assoc]

theorem nodeCountItems_reverse (xs : List Value) :
    nodeCountItems xs.reverse = nodeCountItems xs := by
  induction xs with
  | nil => rfl
  | cons x xs ih => simp [nodeCountItems, nodeCountItems_append, ih, Nat.add_comm]

/-- The nodes in the order they are freed, the latest first. The children of a node are pushed in
order, so the last of them is taken next. -/
def releaseAll (pending freed : List Value) : List Value :=
  match pending with
  | [] => freed
  | node :: rest => releaseAll (node.children.reverse ++ rest) (node :: freed)
termination_by nodeCountItems pending
decreasing_by
  simp only [nodeCountItems_append, nodeCountItems_reverse, nodeCountItems, nodeCount_eq node]
  omega

def release (v : Value) : Nat := (releaseAll [v] []).length

end JsonTree.Value
