import JsonTree.Value

/-! What is said of a tree as a whole: how deep its containers nest, and which nodes it has. -/
namespace JsonTree.Value

/-- Induction on a tree, a container having the property at hand for what is in it. -/
theorem induct {P : Value → Prop} (string : ∀ s, P (.string s)) (int : ∀ n, P (.int n))
    (float : ∀ x, P (.float x)) (literal : ∀ text, P (.literal text))
    (array : ∀ items, (∀ v ∈ items, P v) → P (.array items))
    (object : ∀ members, (∀ m ∈ members, P m.2) → P (.object members))
    (bool : ∀ b, P (.bool b)) (null : P .null) (v : Value) : P v := by
  refine @Value.rec P (fun items => ∀ v ∈ items, P v) (fun members => ∀ m ∈ members, P m.2)
    (fun m => P m.2) string int float literal array object bool null ?_ ?_ ?_ ?_ ?_ v
  · exact nofun
  · exact fun _ _ first others => List.forall_mem_cons.2 ⟨first, others⟩
  · exact nofun
  · exact fun _ _ first others => List.forall_mem_cons.2 ⟨first, others⟩
  · exact fun _ _ inner => inner

mutual

/-- The number of containers around the deepest node, a container counting itself. -/
def nesting : Value → Nat
  | array items => 1 + nestingItems items
  | object members => 1 + nestingMembers members
  | _ => 0

def nestingItems : List Value → Nat
  | [] => 0
  | v :: rest => max v.nesting (nestingItems rest)

def nestingMembers : List (String × Value) → Nat
  | [] => 0
  | (_, v) :: rest => max v.nesting (nestingMembers rest)

end

mutual

/-- A value and all that is in it, in document order. -/
def nodes : Value → List Value
  | array items => array items :: nodesItems items
  | object members => object members :: nodesMembers members
  | v => [v]

def nodesItems : List Value → List Value
  | [] => []
  | v :: rest => v.nodes ++ nodesItems rest

def nodesMembers : List (String × Value) → List Value
  | [] => []
  | (_, v) :: rest => v.nodes ++ nodesMembers rest

end

/-- The texts of the numbers that are kept as text, in document order. -/
def literals (v : Value) : List String := v.nodes.filterMap literal?

theorem mem_nodes (v : Value) : v ∈ v.nodes := by
  cases v <;> exact List.mem_cons_self

theorem nodesItems_eq (items : List Value) : nodesItems items = items.flatMap nodes := by
  induction items with
  | nil => rfl
  | cons v rest ih => rw [nodesItems, ih, List.flatMap_cons]

theorem nodesMembers_eq (members : List (String × Value)) :
    nodesMembers members = members.flatMap (·.2.nodes) := by
  induction members with
  | nil => rfl
  | cons m rest ih => rw [nodesMembers, ih, List.flatMap_cons]

theorem forall_nodes_array {p : Value → Prop} {items : List Value} :
    (∀ n ∈ (array items).nodes, p n) ↔ p (.array items) ∧ ∀ v ∈ items, ∀ n ∈ v.nodes, p n := by
  rw [nodes, nodesItems_eq, List.forall_mem_cons, List.forall_mem_flatMap]

theorem forall_nodes_object {p : Value → Prop} {members : List (String × Value)} :
    (∀ n ∈ (object members).nodes, p n) ↔
      p (.object members) ∧ ∀ m ∈ members, ∀ n ∈ m.2.nodes, p n := by
  rw [nodes, nodesMembers_eq, List.forall_mem_cons, List.forall_mem_flatMap]

theorem literals_array (items : List Value) : (array items).literals = items.flatMap literals := by
  rw [literals, nodes, List.filterMap_cons, nodesItems_eq, List.filterMap_flatMap]
  rfl

theorem literals_object (members : List (String × Value)) :
    (object members).literals = members.flatMap (·.2.literals) := by
  rw [literals, nodes, List.filterMap_cons, nodesMembers_eq, List.filterMap_flatMap]
  rfl

theorem nestingItems_le {items : List Value} {n : Nat} :
    nestingItems items ≤ n ↔ ∀ v ∈ items, v.nesting ≤ n := by
  induction items with
  | nil => simp [nestingItems]
  | cons v rest ih => rw [nestingItems, Nat.max_le, ih, List.forall_mem_cons]

theorem nestingMembers_le {members : List (String × Value)} {n : Nat} :
    nestingMembers members ≤ n ↔ ∀ m ∈ members, m.2.nesting ≤ n := by
  induction members with
  | nil => simp [nestingMembers]
  | cons m rest ih => rw [nestingMembers, Nat.max_le, ih, List.forall_mem_cons]

/-- Containers in a container have one level less. -/
theorem nesting_array_le {items : List Value} {levels : Nat} : (array items).nesting ≤ levels ↔
    ∃ below, levels = below + 1 ∧ ∀ v ∈ items, v.nesting ≤ below := by
  simp only [nesting, ← nestingItems_le]
  constructor
  · intro deep
    exact ⟨levels - 1, by omega, by omega⟩
  · rintro ⟨below, rfl, deepest⟩
    omega

theorem nesting_object_le {members : List (String × Value)} {levels : Nat} :
    (object members).nesting ≤ levels ↔
      ∃ below, levels = below + 1 ∧ ∀ m ∈ members, m.2.nesting ≤ below := by
  simp only [nesting, ← nestingMembers_le]
  constructor
  · intro deep
    exact ⟨levels - 1, by omega, by omega⟩
  · rintro ⟨below, rfl, deepest⟩
    omega

theorem nesting_of_isNumber {v : Value} (h : v.isNumber) : v.nesting = 0 := by
  cases v <;> first | rfl | contradiction

end JsonTree.Value
