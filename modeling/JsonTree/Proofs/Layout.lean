import JsonTree.Layout
import JsonTree.Proofs.StrictGrammar
import JsonTree.Proofs.Tree

/-!
The text of a tree put together from the texts of its children, which is what the writer appends to
the text before it.
-/
namespace JsonTree.Value

/-- The beginning of a line. -/
def margin (depth : Nat) : List Char := '\n' :: List.replicate (2 * depth) ' '

/-- Texts with a comma between them. -/
def joined : List (List Char) → List Char
  | [] => []
  | t :: rest => t ++ rest.flatMap (',' :: ·)

/-- A container on the line at `depth`, with each child on a line of its own. -/
def bracketed (first last : Char) (depth : Nat) (children : List (List Char)) : List Char :=
  if children.isEmpty then [first, last]
  else first :: joined (children.map (margin (depth + 1) ++ ·)) ++ margin depth ++ [last]

mutual

def text (depth : Nat) : Value → List Char
  | string s => Quoted.encode s.toList
  | int n => Integer.text n.toInt
  | float x => FloatText.text x
  | literal text => text.toList
  | bool b => (boolText b).toList
  | null => ['n', 'u', 'l', 'l']
  | array items => bracketed '[' ']' depth (itemTexts (depth + 1) items)
  | object members => bracketed '\x7b' '\x7d' depth (memberTexts (depth + 1) members)

def itemTexts (depth : Nat) : List Value → List (List Char)
  | [] => []
  | v :: rest => v.text depth :: itemTexts depth rest

def memberTexts (depth : Nat) : List (String × Value) → List (List Char)
  | [] => []
  | (key, v) :: rest =>
    (Quoted.encode key.toList ++ ':' :: ' ' :: v.text depth) :: memberTexts depth rest

end

def memberText (depth : Nat) (m : String × Value) : List Char :=
  Quoted.encode m.1.toList ++ ':' :: ' ' :: m.2.text depth

theorem itemTexts_eq (depth : Nat) (items : List Value) :
    itemTexts depth items = items.map (text depth) := by
  induction items with
  | nil => rfl
  | cons v rest ih => rw [itemTexts, ih, List.map_cons]

theorem memberTexts_eq (depth : Nat) (members : List (String × Value)) :
    memberTexts depth members = members.map (memberText depth) := by
  induction members with
  | nil => rfl
  | cons m rest ih => rw [memberTexts, ih, List.map_cons, memberText]

theorem text_array (depth : Nat) (items : List Value) :
    (array items).text depth = bracketed '[' ']' depth (items.map (text (depth + 1))) := by
  rw [text, itemTexts_eq]

theorem text_object (depth : Nat) (members : List (String × Value)) :
    (object members).text depth =
      bracketed '\x7b' '\x7d' depth (members.map (memberText (depth + 1))) := by
  rw [text, memberTexts_eq]

theorem toList_indent (depth : Nat) : '\n' :: (indent depth).toList = margin depth := by
  rw [indent, String.toList_ofList, margin]

theorem toList_quoted (s : String) : (quoted s).toList = Quoted.encode s.toList :=
  String.toList_ofList

mutual

theorem toList_write (depth : Nat) (out : String) :
    ∀ v : Value, (v.write depth out).toList = out.toList ++ v.text depth
  | string s => by rw [write, String.toList_append, toList_quoted, text]
  | int n => by rw [write, String.toList_append, String.toList_ofList, text]
  | float x => by rw [write, String.toList_append, String.toList_ofList, text]
  | literal s => by rw [write, String.toList_append, text]
  | bool b => by rw [write, String.toList_append, text]
  | null => by rw [write, String.toList_append, text]; rfl
  | array [] => by rw [write, String.toList_append]; rfl
  | object [] => by rw [write, String.toList_append]; rfl
  | array (v :: rest) => by
    rw [write]
    simp only [String.toList_append, toList_writeItems, toList_write]
    simp [text, itemTexts, bracketed, joined, ← toList_indent, List.flatMap_map]
  | object ((key, v) :: rest) => by
    rw [write]
    simp only [String.toList_append, toList_writeMembers, toList_write, toList_quoted]
    simp [text, memberTexts, bracketed, joined, ← toList_indent, List.flatMap_map]

theorem toList_writeItems (depth : Nat) (out : String) : ∀ items : List Value,
    (writeItems depth out items).toList =
      out.toList ++ (itemTexts depth items).flatMap (fun t => ',' :: (margin depth ++ t))
  | [] => by simp [writeItems, itemTexts]
  | v :: rest => by
    rw [writeItems, toList_writeItems, toList_write]
    simp [itemTexts, ← toList_indent]

theorem toList_writeMembers (depth : Nat) (out : String) : ∀ members : List (String × Value),
    (writeMembers depth out members).toList =
      out.toList ++ (memberTexts depth members).flatMap (fun t => ',' :: (margin depth ++ t))
  | [] => by simp [writeMembers, memberTexts]
  | (key, v) :: rest => by
    rw [writeMembers, toList_writeMembers, toList_write]
    simp [memberTexts, ← toList_indent, toList_quoted]

end

theorem toList_toJson (v : Value) : v.toJson.toList = v.text 0 := by
  rw [toJson, toList_write]
  rfl

section

open Strict

variable {α : Type} {R : List Char → α → Prop} {f : α → List Char} {as : List α}

theorem space_margin (depth : Nat) : Space (margin depth) := by
  intro c hc
  obtain rfl | inner := List.mem_cons.1 hc
  · exact .inr (.inr (.inl rfl))
  · exact .inl (List.eq_of_mem_replicate inner)

theorem separated_joined {a : α} (first : R (f a) a) (each : ∀ a ∈ as, R (f a) a) :
    Separated R (joined ((a :: as).map f)) (a :: as) := by
  induction as generalizing a with
  | nil => simpa [joined] using Separated.last first
  | cons b rest ih =>
    obtain ⟨next, others⟩ := List.forall_mem_cons.1 each
    exact .more first (ih next others)

/-- A container is written as one, where its children are written as what they are. -/
theorem bracketed_text (first last : Char) (depth : Nat) (each : ∀ a ∈ as, R (f a) a) :
    Bracketed R first last (bracketed first last depth (as.map f)) as := by
  cases as with
  | nil => exact .empty space_nil
  | cons a rest =>
    have line : ∀ a, R (f a) a → Padded R (margin (depth + 1) ++ f a) a := by
      intro a text
      have padded := Padded.mk (space_margin (depth + 1)) text space_nil
      rwa [List.append_nil] at padded
    obtain ⟨text, others⟩ := List.forall_mem_cons.1 each
    have inside := separated_joined (R := Padded R) (line a text) fun b hb => line b (others b hb)
    have whole : Bracketed R first last _ (a :: rest) := .items (inside.before (space_margin depth))
    simpa [bracketed, Function.comp_def] using whole

end

end JsonTree.Value
