import JsonTree.Proofs.CompiledPaths
import JsonTree.Proofs.Tree

/-!
Paths made of wildcards. Such a path leads where the lookups of its arguments lead, one after another.
A key is looked up as it is, also where it holds what a path is made of.
-/
namespace JsonTree

/-- A lookup in one node. -/
inductive Lookup where
  | member (key : String)
  | element (index : UInt64)

namespace Lookup

def target? : Lookup → Value → Option Value
  | member key, v => v.get? key
  | element index, v => v.at? index.toNat

/-- The segment that leaves the key or the index to an argument. -/
def wildcard : Lookup → String
  | member _ => ".*"
  | element _ => "[*]"

def argument : Lookup → Argument
  | member key => .key key
  | element index => .ofUInt64 index

/-- A key has a byte and no more than a token takes. -/
def Fits : Lookup → Prop
  | member key => 1 ≤ key.utf8ByteSize ∧ key.utf8ByteSize ≤ 256
  | element _ => True

instance : DecidablePred Fits
  | member _ => inferInstanceAs (Decidable (_ ∧ _))
  | element _ => inferInstanceAs (Decidable True)

end Lookup

namespace Argument

theorem text_index {n : Nat} (h : n < 2 ^ 63) : (index (Int64.ofNat n)).text = Integer.digits n := by
  have natural : ¬ (n : Int) < 0 := Int.not_lt.2 (Int.natCast_nonneg n)
  rw [text, Path.ofString_toString, Int64.toInt_ofNat_of_lt h, Integer.text, if_neg natural,
    Int.natAbs_natCast, Integer.digits]

/-- The greatest position stands for all that lie above it. -/
theorem ofUInt64_eq (n : UInt64) : ofUInt64 n = .index (Int64.ofNat (min n.toNat (2 ^ 63 - 1))) := rfl

end Argument

namespace Lookup

open JsonTree.Path

/-! ### Compiling -/

def segment (l : Lookup) : Segment where
  step := l.argument.step
  token := [Byte.star]
  inner := List.forall_mem_singleton.2 (by decide)
  wildcard := by decide

def move (l : Lookup) : Move := ⟨l.argument.step, l.argument.text⟩

theorem text_segment (l : Lookup) : l.segment.text = Utf8.ofString l.wildcard := by
  have member : [Byte.point, Byte.star] = Utf8.ofString ".*" := by decide
  have element : [Byte.openBracket, Byte.star, Byte.closeBracket] = Utf8.ofString "[*]" := by decide
  cases l with
  | member => exact member
  | element => exact element

theorem fill?_segment (l : Lookup) (args : List Argument) :
    l.segment.fill? (l.argument :: args) = some (l.move, args) := by
  simp [Segment.fill?, segment, move]

theorem fillAll?_segments (lookups : List Lookup) :
    fillAll? (lookups.map segment) (lookups.map argument) = some (lookups.map move) := by
  induction lookups with
  | nil => rfl
  | cons l rest ih => simp [fillAll?, fill?_segment, ih]

theorem text_segments (lookups : List Lookup) : (lookups.map segment).flatMap Segment.text =
    Utf8.ofString (String.join (lookups.map wildcard)) := by
  induction lookups with
  | nil => rfl
  | cons l rest ih =>
    rw [List.map_cons, List.flatMap_cons, ih, text_segment, List.map_cons, String.join_cons,
      Utf8.ofString, Utf8.ofString, Utf8.ofString, String.toList_append, Utf8.ofChars_append]

theorem fits_move {l : Lookup} (h : l.Fits) : l.move.Fits := by
  cases l with
  | member key =>
    rw [Move.Fits, move, argument, Argument.text, Utf8.length_ofString]
    exact h
  | element index =>
    have small : min index.toNat (2 ^ 63 - 1) < 2 ^ 63 := by omega
    have places := Integer.length_digits_le (by decide : 0 < 19) (Nat.lt_trans small (by decide))
    rw [Move.Fits, move, argument, Argument.ofUInt64_eq, Argument.text_index small]
    exact ⟨List.length_pos_iff.2 (Integer.digits_ne_nil _), Nat.le_trans places (by decide)⟩

theorem compile?_wildcards {lookups : List Lookup} (fit : ∀ l ∈ lookups, l.Fits) :
    compile? (Utf8.ofString (String.join (lookups.map wildcard))) (lookups.map argument) =
      some (lookups.map move) := by
  have fits : ∀ l ∈ lookups, l.move.Fits := fun l hl => fits_move (fit l hl)
  rw [compile?, ← text_segments, segments?_text]
  simpa [fillAll?_segments] using fits

/-! ### Running -/

/-- What holds of all nodes holds of those from a child on. -/
theorem forall_nodes_target {p : Value → Prop} {l : Lookup} {v child : Value}
    (all : ∀ n ∈ v.nodes, p n) (found : l.target? v = some child) : ∀ n ∈ child.nodes, p n := by
  cases l with
  | member key =>
    obtain ⟨members, same, hit⟩ := Option.bind_eq_some_iff.1 found
    obtain ⟨m, first, rfl⟩ := Option.map_eq_some_iff.1 hit
    cases v <;> cases same
    exact (Value.forall_nodes_object.1 all).2 m (List.mem_of_find?_eq_some first)
  | element index =>
    obtain ⟨items, same, hit⟩ := Option.bind_eq_some_iff.1 found
    cases v <;> cases same
    exact (Value.forall_nodes_array.1 all).2 child (List.mem_of_getElem? hit)

/-- A position that the argument does not keep lies beyond the array, as does the one it becomes. -/
theorem getElem?_min {items : List Value} (short : items.length < 2 ^ 63) (n : Nat) :
    items[min n (2 ^ 63 - 1)]? = items[n]? := by
  by_cases kept : n ≤ 2 ^ 63 - 1
  · rw [Nat.min_eq_left kept]
  · rw [List.getElem?_eq_none (by omega), List.getElem?_eq_none (by omega)]

theorem target?_move {v : Value} (short : ∀ items ∈ v.items?, items.length < 2 ^ 63) (l : Lookup) :
    l.move.target? v = l.target? v := by
  cases l with
  | member key =>
    cases v <;> simp [Move.target?, move, argument, Argument.step, Argument.text, target?,
      Value.get?, Value.member?, Value.members?, Utf8.ofString_inj, beq_eq_decide]
  | element index =>
    have small : min index.toNat (2 ^ 63 - 1) < 2 ^ 63 := by omega
    have all := Integer.isDigit_digits (min index.toNat (2 ^ 63 - 1))
    cases v with
    | array items =>
      simp only [Move.target?, move, argument, Argument.ofUInt64_eq, Argument.step,
        Argument.text_index small, Integer.positional_digits]
      rw [if_pos ⟨all, Nat.lt_trans small (by decide)⟩, getElem?_min (short items rfl)]
      rfl
    | _ => rfl

theorem run_moves {lookups : List Lookup} {root : Value}
    (short : ∀ n ∈ root.nodes, ∀ items ∈ n.items?, items.length < 2 ^ 63) :
    run (lookups.map move) root = lookups.foldlM (fun v l => l.target? v) root := by
  induction lookups generalizing root with
  | nil => rfl
  | cons l rest ih =>
    have here := target?_move (short root root.mem_nodes) l
    rw [List.map_cons, run_cons, here, List.foldlM_cons]
    cases found : l.target? root with
    | none => rfl
    | some child => exact ih (forall_nodes_target short found)

end Lookup

/-- A path of one wildcard for each lookup leads where the lookups lead one after another, and nowhere
as soon as one of them finds nothing. -/
theorem Value.select?_wildcards (lookups : List Lookup) (fit : ∀ l ∈ lookups, l.Fits) {root : Value}
    (short : ∀ n ∈ root.nodes, ∀ items ∈ n.items?, items.length < 2 ^ 63) :
    root.select? (String.join (lookups.map Lookup.wildcard)) (lookups.map Lookup.argument) =
      lookups.foldlM (fun v l => l.target? v) root := by
  rw [select?, Path.evaluate_eq_compiled, Lookup.compile?_wildcards fit, Option.bind_some,
    Lookup.run_moves short]

/-- A key that looks like a path of its own, and an index above all positions. -/
theorem Value.select?_wildcards_pathlike :
    (Value.object [("a", .null), ("].*[0]:a", .array [.null, .bool true])]).select? ".*[*]"
        [.key "].*[0]:a", .ofUInt64 1] = some (.bool true) ∧
      (Value.object [("a", .null), ("].*[0]:a", .array [.null, .bool true])]).select? ".*[*]"
        [.key "].*[0]:a", .ofUInt64 0xFFFFFFFFFFFFFFFF] = none := by
  have short : ∀ n ∈ (Value.object [("a", .null), ("].*[0]:a", .array [.null, .bool true])]).nodes,
      ∀ items ∈ n.items?, items.length < 2 ^ 63 := by
    simp [nodes, nodesItems, nodesMembers, items?]
  constructor
  · exact select?_wildcards [.member "].*[0]:a", .element 1] (by decide) short
  · exact select?_wildcards [.member "].*[0]:a", .element 0xFFFFFFFFFFFFFFFF] (by decide) short

end JsonTree
