import JsonTree.Proofs.Places

/-!
Taking a tree apart frees each of its nodes once. A round of the loop moves one node from the stack
to those freed and puts its children on the stack, so that at any time the nodes freed and those below
the stack are the nodes of the tree. The stack is empty after as many rounds as there are nodes.
-/
namespace JsonTree

/-- The nodes on the stack, and those freed with the latest first. -/
structure Teardown where
  pending : List Placed
  freed : List Placed

namespace Teardown

/-- The topmost node is freed and its children are pushed in order. -/
def next : Teardown → Teardown
  | ⟨[], freed⟩ => ⟨[], freed⟩
  | ⟨p :: rest, freed⟩ => ⟨p.children.reverse ++ rest, p :: freed⟩

/-- The loop over a tree after some rounds. -/
def rounds (v : Value) : Nat → Teardown
  | 0 => ⟨[⟨[], v⟩], []⟩
  | n + 1 => (rounds v n).next

/-- What the loop comes to from here on. -/
def outcome (s : Teardown) : List Value :=
  Value.releaseAll (s.pending.map Placed.node) (s.freed.map Placed.node)

/-- How many nodes are not freed yet. -/
def left (s : Teardown) : Nat := Value.nodeCountItems (s.pending.map Placed.node)

/-- The nodes that are not freed yet, and those that are. -/
def nodes (s : Teardown) : List Placed := s.pending.flatMap Placed.below ++ s.freed

theorem outcome_next (s : Teardown) : s.next.outcome = s.outcome := by
  obtain ⟨pending, freed⟩ := s
  cases pending with
  | nil => rfl
  | cons p rest =>
    simp only [outcome, next, List.map_append, List.map_reverse, Placed.map_node_children,
      List.map_cons]
    rw [Value.releaseAll]

theorem left_next (s : Teardown) : s.next.left = s.left - 1 := by
  obtain ⟨pending, freed⟩ := s
  cases pending with
  | nil => rfl
  | cons p rest =>
    simp only [left, next, List.map_append, List.map_reverse, Placed.map_node_children,
      List.map_cons]
    rw [Value.nodeCountItems_append, Value.nodeCountItems_reverse, Value.nodeCountItems,
      Value.nodeCount_eq p.node]
    omega

theorem nodes_next (s : Teardown) : s.next.nodes.Perm s.nodes := by
  obtain ⟨pending, freed⟩ := s
  cases pending with
  | nil => exact .rfl
  | cons p rest =>
    simp only [nodes, next, List.flatMap_append, List.flatMap_cons, Placed.below_eq p]
    have order := (List.reverse_perm p.children).flatMap_right Placed.below
    exact List.perm_middle.trans (((order.append_right _).append_right freed).cons p)

theorem pending_eq_nil_iff {s : Teardown} : s.pending = [] ↔ s.left = 0 := by
  obtain ⟨pending, freed⟩ := s
  cases pending with
  | nil => exact ⟨fun _ => rfl, fun _ => rfl⟩
  | cons p rest => simp [left, Value.nodeCountItems, Value.nodeCount_eq p.node]

/-- What holds of the loop over a tree after some rounds. -/
structure Reached (v : Value) (n : Nat) (s : Teardown) : Prop where
  outcome : s.outcome = Value.releaseAll [v] []
  left : s.left = v.nodeCount - n
  nodes : s.nodes.Perm (Placed.below ⟨[], v⟩)

variable {v : Value} {n : Nat} {s : Teardown}

theorem Reached.next (h : Reached v n s) : Reached v (n + 1) s.next where
  outcome := s.outcome_next.trans h.outcome
  left := by rw [s.left_next, h.left, Nat.sub_sub]
  nodes := s.nodes_next.trans h.nodes

theorem reached_rounds (v : Value) (n : Nat) : Reached v n (rounds v n) := by
  induction n with
  | zero =>
    constructor
    · rfl
    · simp [rounds, Teardown.left, Value.nodeCountItems]
    · simp [rounds, Teardown.nodes]
  | succ n ih => exact ih.next

/-- The loop ends with the round that frees the last node, and not before. -/
theorem rounds_pending_iff : (rounds v n).pending = [] ↔ v.nodeCount ≤ n := by
  rw [pending_eq_nil_iff, (reached_rounds v n).left, Nat.sub_eq_zero_iff_le]

/-- Once the stack is empty, all nodes are freed and the loop has come to what it comes to. -/
theorem Reached.freed (h : Reached v n s) (empty : s.pending = []) :
    s.freed.map Placed.node = Value.releaseAll [v] [] ∧
      s.freed.Perm (Placed.below ⟨[], v⟩) := by
  obtain ⟨pending, freed⟩ := s
  cases empty
  constructor
  · rw [← h.outcome, Teardown.outcome, List.map_nil, Value.releaseAll]
  · exact h.nodes

end Teardown

theorem Value.length_releaseAll (pending freed : List Value) :
    (releaseAll pending freed).length = nodeCountItems pending + freed.length := by
  fun_induction releaseAll pending freed with
  | case1 freed => rw [nodeCountItems, Nat.zero_add]
  | case2 freed node rest ih =>
    rw [ih, nodeCountItems, nodeCountItems_append, nodeCountItems_reverse, nodeCount_eq node,
      List.length_cons]
    omega

/-- The count is that of the nodes, the root and those of its children. The loop ends after one round
for each of them, and by then it has freed the node of each place, and no place twice. -/
theorem Value.release_counts (v : Value) :
    v.release = v.nodeCount ∧ v.nodeCount = 1 + (v.children.map nodeCount).sum ∧
      (∀ n, (Teardown.rounds v n).pending = [] ↔ v.nodeCount ≤ n) ∧
      (Teardown.rounds v v.nodeCount).freed.map Placed.node = releaseAll [v] [] ∧
      ((Teardown.rounds v v.nodeCount).freed.map Placed.place).Nodup ∧
      ∀ p, p ∈ (Teardown.rounds v v.nodeCount).freed ↔ v.node? p.place = some p.node := by
  have empty := Teardown.rounds_pending_iff.2 (Nat.le_refl v.nodeCount)
  obtain ⟨freed, all⟩ := (Teardown.reached_rounds v v.nodeCount).freed empty
  refine ⟨?_, ?_, fun n => Teardown.rounds_pending_iff, freed, ?_, fun p => ?_⟩
  · simp [release, length_releaseAll, nodeCountItems]
  · rw [nodeCount_eq, nodeCountItems_eq]
  · exact (all.map Placed.place).nodup_iff.2 (Placed.nodup_below _)
  · rw [all.mem_iff, Placed.mem_below_iff]
    simp

end JsonTree
