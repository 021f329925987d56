import JsonTree.Value.Release
import Mathlib.Algebra.Order.BigOperators.Group.List
import Mathlib.Algebra.Order.Ring.Nat
import Mathlib.Data.List.Nodup

/-!
Places in a tree. Nodes may be equal, so a node is told from the others by the positions that lead to
it from the root, one for each level. The list of all nodes has each place once.
-/
namespace JsonTree

namespace Value

/-- The node that positions of children lead to, one after another. -/
def node? (v : Value) : List Nat → Option Value
  | [] => some v
  | i :: place => v.children[i]?.bind fun child => child.node? place

theorem node?_cons_eq_some_iff {v n : Value} {i : Nat} {place : List Nat} :
    v.node? (i :: place) = some n ↔
      ∃ child, v.children[i]? = some child ∧ child.node? place = some n :=
  Option.bind_eq_some_iff

/-- The tree with another node in a place. -/
def replace (v : Value) : List Nat → Value → Value
  | [], n => n
  | i :: place, n =>
    match v with
    | array items => array (items.modify i fun child => child.replace place n)
    | object members => object (members.modify i fun m => (m.1, m.2.replace place n))
    | v => v

theorem nodeCountItems_eq (items : List Value) :
    nodeCountItems items = (items.map nodeCount).sum := by
  induction items with
  | nil => rfl
  | cons v rest ih => rw [nodeCountItems, ih, List.map_cons, List.sum_cons]

theorem nodeCount_lt {child v : Value} (h : child ∈ v.children) :
    child.nodeCount < v.nodeCount := by
  have part := List.le_sum_of_mem (List.mem_map_of_mem (f := nodeCount) h)
  rw [nodeCount_eq v, nodeCountItems_eq]
  omega

end Value

/-- A node with its place. -/
@[ext]
structure Placed where
  place : List Nat
  node : Value

namespace Placed

def children (p : Placed) : List Placed := p.node.children.mapIdx fun i v => ⟨p.place ++ [i], v⟩

theorem map_node_children (p : Placed) : p.children.map node = p.node.children := by
  apply List.ext_getElem
  · simp [children]
  · simp [children]

theorem mem_children_iff {p child : Placed} : child ∈ p.children ↔
    ∃ i, p.node.children[i]? = some child.node ∧ child.place = p.place ++ [i] := by
  rw [children, List.mem_iff_getElem?]
  apply exists_congr
  intro i
  rw [List.getElem?_mapIdx, Option.map_eq_some_iff]
  constructor
  · rintro ⟨v, found, rfl⟩
    exact ⟨found, rfl⟩
  · rintro ⟨found, place⟩
    exact ⟨child.node, found, by rw [← place]⟩

theorem nodeCount_lt {child p : Placed} (h : child ∈ p.children) :
    child.node.nodeCount < p.node.nodeCount := by
  apply Value.nodeCount_lt
  rw [← map_node_children]
  exact List.mem_map_of_mem h

/-- A node and all that are below it. -/
def below (p : Placed) : List Placed := p :: p.children.attach.flatMap fun child => below child.1
termination_by p.node.nodeCount
decreasing_by exact nodeCount_lt child.2

theorem below_eq (p : Placed) : p.below = p :: p.children.flatMap below := by
  rw [below, List.flatMap_subtype (g := below) (by simp), List.unattach_attach]

/-- Induction on a node, the property being at hand for its children. -/
theorem induct {P : Placed → Prop} (step : ∀ p, (∀ child ∈ p.children, P child) → P p)
    (p : Placed) : P p :=
  below.induct P (fun p ih => step p fun child hc => ih ⟨child, hc⟩) p

theorem mem_below_iff {p q : Placed} :
    q ∈ p.below ↔ ∃ path, q.place = p.place ++ path ∧ p.node.node? path = some q.node := by
  induction p using induct with
  | step p ih =>
    rw [below_eq, List.mem_cons, List.mem_flatMap]
    constructor
    · rintro (rfl | ⟨child, member, inner⟩)
      · exact ⟨[], (List.append_nil _).symm, rfl⟩
      · obtain ⟨i, found, place⟩ := mem_children_iff.1 member
        obtain ⟨path, further, node⟩ := (ih child member).1 inner
        refine ⟨i :: path, ?_, Value.node?_cons_eq_some_iff.2 ⟨_, found, node⟩⟩
        rw [further, place, List.append_assoc, List.singleton_append]
    · rintro ⟨path, place, node⟩
      cases path with
      | nil =>
        rw [List.append_nil] at place
        exact .inl (Placed.ext place (Option.some.inj node).symm)
      | cons i path =>
        obtain ⟨v, found, node⟩ := Value.node?_cons_eq_some_iff.1 node
        have member : ⟨p.place ++ [i], v⟩ ∈ p.children := mem_children_iff.2 ⟨i, found, rfl⟩
        refine .inr ⟨_, member, (ih _ member).2 ⟨path, ?_, node⟩⟩
        rw [place, List.append_assoc, List.singleton_append]

/-- Below different children the places differ in the position of the child. -/
theorem pairwise_children (p : Placed) : p.children.Pairwise fun a b =>
    ∀ x ∈ a.below, ∀ y ∈ b.below, x.place ≠ y.place := by
  rw [List.pairwise_iff_getElem]
  intro i j hi hj before x hx y hy same
  obtain ⟨path, first, _⟩ := mem_below_iff.1 hx
  obtain ⟨other, second, _⟩ := mem_below_iff.1 hy
  rw [first, second] at same
  simp only [children, List.getElem_mapIdx, List.append_assoc, List.singleton_append] at same
  have positions := (List.cons.inj (List.append_cancel_left same)).1
  omega

theorem nodup_below (p : Placed) : (p.below.map place).Nodup := by
  rw [List.Nodup, List.pairwise_map]
  induction p using induct with
  | step p ih =>
    rw [below_eq, List.pairwise_cons, List.pairwise_flatMap]
    refine ⟨?_, ih, pairwise_children p⟩
    intro q hq same
    obtain ⟨child, member, inner⟩ := List.mem_flatMap.1 hq
    obtain ⟨i, _, place⟩ := mem_children_iff.1 member
    obtain ⟨path, further, _⟩ := mem_below_iff.1 inner
    have longer := congrArg List.length same
    simp only [further, place, List.length_append, List.length_singleton] at longer
    omega

end Placed

end JsonTree
