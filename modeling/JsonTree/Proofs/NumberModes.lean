import JsonTree.Proofs.Faults
import JsonTree.Proofs.Scanning
import Mathlib.Data.List.Forall2

/-!
Numbers kept as text against numbers decoded. Both ways of reading accept the same documents but for
literals out of range, and a document with such a literal fails at the first of them.
-/
namespace JsonTree

open Grammar

inductive Keyed (S : Value → Value → Prop) : String × Value → String × Value → Prop where
  | mk {key : String} {v w : Value} : S v w → Keyed S (key, v) (key, w)

/-- The second tree is the first with each kept literal decoded. -/
inductive Decodes : Value → Value → Prop where
  | literal {text : String} {v : Value} : parseNumber (Utf8.ofString text) = .ok v →
      Decodes (.literal text) v
  | string {s : String} : Decodes (.string s) (.string s)
  | bool {b : Bool} : Decodes (.bool b) (.bool b)
  | null : Decodes .null .null
  | array {items others : List Value} : List.Forall₂ Decodes items others →
      Decodes (.array items) (.array others)
  | object {members others : List (String × Value)} : List.Forall₂ (Keyed Decodes) members others →
      Decodes (.object members) (.object others)

namespace Decodes

mutual

theorem nesting_eq : ∀ (v w : Value), Decodes v w → v.nesting = w.nesting
  | .literal text, w, .literal decoded => by
    have number := Number.isNumber_of_decode (parseNumber_eq_ok_iff.1 decoded).decoded
    rw [Value.nesting_of_isNumber number]
    rfl
  | .array items, .array others, .array all => by
    rw [Value.nesting, Value.nesting, nestingItems_eq items others all]
  | .object members, .object others, .object all => by
    rw [Value.nesting, Value.nesting, nestingMembers_eq members others all]
  | .string _, _, .string => rfl
  | .bool _, _, .bool => rfl
  | .null, _, .null => rfl

theorem nestingItems_eq : ∀ (items others : List Value), List.Forall₂ Decodes items others →
    Value.nestingItems items = Value.nestingItems others
  | [], _, .nil => rfl
  | v :: rest, w :: more, .cons related all => by
    rw [Value.nestingItems, Value.nestingItems, nesting_eq v w related,
      nestingItems_eq rest more all]

theorem nestingMembers_eq : ∀ (members others : List (String × Value)),
    List.Forall₂ (Keyed Decodes) members others →
    Value.nestingMembers members = Value.nestingMembers others
  | [], _, .nil => rfl
  | (_, v) :: rest, (_, w) :: more, .cons (.mk related) all => by
    rw [Value.nestingMembers, Value.nestingMembers, nesting_eq v w related,
      nestingMembers_eq rest more all]

end

end Decodes

namespace Grammar

section

variable {α β : Type} {R : List UInt8 → β → Prop} {M : α → β → Prop} {t : List UInt8} {a : α}
  {as : List α}

theorem Padded.choose (h : Padded (fun t a => ∃ b, R t b ∧ M a b) t a) :
    ∃ b, Padded R t b ∧ M a b := by
  obtain ⟨before, ⟨b, inner, related⟩, after⟩ := h
  exact ⟨b, .mk before inner after, related⟩

theorem Separated.choose (h : Separated (Padded fun t a => ∃ b, R t b ∧ M a b) t as) :
    ∃ bs, Separated (Padded R) t bs ∧ List.Forall₂ M as bs := by
  induction h with
  | last item =>
    obtain ⟨b, inner, related⟩ := item.choose
    exact ⟨[b], .last inner, .cons related .nil⟩
  | more item _ ih =>
    obtain ⟨b, inner, related⟩ := item.choose
    obtain ⟨bs, others, all⟩ := ih
    exact ⟨b :: bs, .more inner others, .cons related all⟩

theorem Bracketed.choose {first last : UInt8}
    (h : Bracketed (fun t a => ∃ b, R t b ∧ M a b) first last t as) :
    ∃ bs, Bracketed R first last t bs ∧ List.Forall₂ M as bs := by
  cases h with
  | empty space => exact ⟨[], .empty space, .nil⟩
  | items inside =>
    obtain ⟨bs, inner, all⟩ := inside.choose
    exact ⟨bs, .items inner, all⟩

end

theorem Bracketed.chooseMembers {R : List UInt8 → Value → Prop} {M : Value → Value → Prop}
    {first last : UInt8} {t : List UInt8} {members : List (String × Value)}
    (h : Bracketed (MemberText fun t v => ∃ w, R t w ∧ M v w) first last t members) :
    ∃ others, Bracketed (MemberText R) first last t others ∧
      List.Forall₂ (Keyed M) members others := by
  refine (h.mono (S := fun t m => ∃ m', MemberText R t m' ∧ Keyed M m m') ?_).choose
  rintro _ _ _ ⟨key, before, after, w, inner, related⟩
  exact ⟨_, .mk key before after inner, .mk related⟩

end Grammar

/-- A text that reads with its numbers decoded reads with them kept. -/
theorem valueText_kept {t : List UInt8} {v : Value} (h : ValueText false t v) :
    ∃ w, ValueText true t w ∧ Decodes w v := by
  refine ValueText.induct (P := fun t v => ∃ w, ValueText true t w ∧ Decodes w v)
    ?array ?object ?string ?keyword ?number h
  case array =>
    intro t items inside
    obtain ⟨others, texts, all⟩ := (inside.mono fun _ _ _ => And.right).choose
    exact ⟨_, .array texts, .array all.flip⟩
  case object =>
    intro t members inside
    have kept := inside.mono fun _ _ _ => MemberText.mono
      (S := fun t v => ∃ w, ValueText true t w ∧ flip Decodes v w) fun _ => And.right
    obtain ⟨others, texts, all⟩ := kept.chooseMembers
    refine ⟨_, .object texts, .object (all.flip.imp ?_)⟩
    rintro _ _ ⟨related⟩
    exact .mk related
  case string => exact fun t s text => ⟨_, .string text, .string⟩
  case keyword =>
    intro t v word
    exact ⟨v, .keyword word, by cases word <;> constructor⟩
  case number =>
    intro t v text
    have kept := Number.numberText_iff.2 (Number.decode_kept text.decoded)
    refine ⟨_, .number kept, .literal ?_⟩
    rw [Number.ofString_literalText text.decoded]
    exact parseNumber_eq_ok_iff.2 text

/-- A text that reads with its numbers kept reads with them decoded if each of them decodes. -/
theorem valueText_decoded {t : List UInt8} {v : Value} (h : ValueText true t v)
    (fits : ∀ text ∈ v.literals, ∃ n, parseNumber (Utf8.ofString text) = .ok n) :
    ∃ w, ValueText false t w ∧ Decodes v w := by
  revert fits
  refine ValueText.induct (P := fun t v =>
    (∀ text ∈ v.literals, ∃ n, parseNumber (Utf8.ofString text) = .ok n) →
      ∃ w, ValueText false t w ∧ Decodes v w) ?array ?object ?string ?keyword ?number h
  case array =>
    intro t items inside fits
    rw [Value.literals_array] at fits
    have decoded := inside.mono fun _ v hv both =>
      both.2 fun text inner => fits text (List.mem_flatMap.2 ⟨v, hv, inner⟩)
    obtain ⟨others, texts, all⟩ := decoded.choose
    exact ⟨_, .array texts, .array all⟩
  case object =>
    intro t members inside fits
    rw [Value.literals_object] at fits
    have decoded := inside.mono fun _ m hm => MemberText.mono
      (S := fun t v => ∃ w, ValueText false t w ∧ Decodes v w) fun _ both =>
        both.2 fun text inner => fits text (List.mem_flatMap.2 ⟨m, hm, inner⟩)
    obtain ⟨others, texts, all⟩ := decoded.chooseMembers
    exact ⟨_, .object texts, .object all⟩
  case string => exact fun t s text _ => ⟨_, .string text, .string⟩
  case keyword =>
    intro t v word _
    exact ⟨v, .keyword word, by cases word <;> constructor⟩
  case number =>
    intro t v text fits
    cases (Number.decode_kept text.decoded).symm.trans text.decoded
    obtain ⟨n, decoded⟩ := fits (Number.literalText t) (by simp [Value.literals, Value.nodes, Value.literal?])
    refine ⟨n, .number ?_, .literal decoded⟩
    rw [Number.ofString_literalText text.decoded] at decoded
    exact parseNumber_eq_ok_iff.1 decoded

end JsonTree
