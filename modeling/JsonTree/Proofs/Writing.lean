import JsonTree.Proofs.Layout
import JsonTree.Proofs.Numbers
import JsonTree.Proofs.Parsing
import JsonTree.Proofs.Quoting

/-!
What is written is text of the grammar, as long as the text of each number reads back as that number.
-/
namespace JsonTree

open Grammar

namespace Utf8

theorem ofString_ofList (text : List Char) : ofString (.ofList text) = ofChars text := by
  rw [ofString, String.toList_ofList]

end Utf8

namespace FloatText

theorem float_ext {x y : Float} (h : x.toBits = y.toBits) : x = y := by
  obtain ⟨m, _⟩ := x
  obtain ⟨m', _⟩ := y
  cases h
  rfl

theorem readsBack_iff {x : Float} {text : List Char} :
    readsBack x text ↔ parseNumber (Utf8.ofChars text) = .ok (.float x) := by
  unfold readsBack readBack
  constructor
  · intro h
    split at h
    · rename_i y same
      split at same
      · rename_i decoded
        cases same
        rw [decoded, float_ext (beq_iff_eq.1 h)]
      · contradiction
    · contradiction
  · intro h
    simp [h]

end FloatText

namespace Value

variable {asText : Bool}

/-- The text of the node, if it is a number, reads back as it. -/
def ReadsBack (asText : Bool) (v : Value) : Prop :=
  v.isNumber → NumberText asText (Utf8.ofString v.toJson) v

theorem space_gap : Space [Byte.space] := by
  intro b hb
  rw [List.mem_singleton.1 hb]
  decide

theorem keywordText_bool (b : Bool) : KeywordText (Utf8.ofString (boolText b)) (.bool b) := by
  cases b with
  | true => exact .true
  | false => exact .false

section

variable {α : Type} {R : List Char → α → Prop} {S : List UInt8 → α → Prop} {t : List Char} {a : α}
  {as : List α}

theorem space_ofChars {w : List Char} (h : Strict.Space w) : Space (Utf8.ofChars w) := by
  intro b hb
  obtain ⟨c, hc, hb⟩ := List.mem_flatMap.1 hb
  obtain rfl | rfl | rfl | rfl := h c hc <;> rw [List.mem_singleton.1 hb] <;> rfl

theorem padded_ofChars (imp : ∀ t, R t a → S (Utf8.ofChars t) a) (h : Strict.Padded R t a) :
    Padded S (Utf8.ofChars t) a := by
  obtain ⟨before, inner, after⟩ := h
  rw [Utf8.ofChars_append, Utf8.ofChars_append]
  exact .mk (space_ofChars before) (imp _ inner) (space_ofChars after)

theorem separated_ofChars (imp : ∀ t a, R t a → S (Utf8.ofChars t) a)
    (h : Strict.Separated R t as) : Separated S (Utf8.ofChars t) as := by
  induction h with
  | last item => exact .last (imp _ _ item)
  | more item _ ih =>
    rw [Utf8.ofChars_append]
    exact .more (imp _ _ item) ih

theorem bracketed_ofChars {first last : Char} {b b' : UInt8}
    (opens : String.utf8EncodeChar first = [b]) (closes : String.utf8EncodeChar last = [b'])
    (imp : ∀ t a, R t a → S (Utf8.ofChars t) a) (h : Strict.Bracketed R first last t as) :
    Bracketed S b b' (Utf8.ofChars t) as := by
  have close : Utf8.ofChars [last] = [b'] := by rw [Utf8.ofChars, List.flatMap_singleton, closes]
  have ends : ∀ u, Utf8.ofChars (first :: u ++ [last]) = b :: Utf8.ofChars u ++ [b'] := by
    intro u
    rw [Utf8.ofChars_append, Utf8.ofChars_cons, opens, close]
    rfl
  cases h with
  | empty space =>
    rw [ends]
    exact .empty (space_ofChars space)
  | items inside =>
    rw [ends]
    exact .items (separated_ofChars (fun _ _ => padded_ofChars fun t => imp t _) inside)

end

theorem memberText_text {R : List UInt8 → Value → Prop} {depth : Nat} {m : String × Value}
    (text : R (Utf8.ofChars (m.2.text depth)) m.2) :
    MemberText R (Utf8.ofChars (memberText depth m)) m := by
  have member := MemberText.mk (Quoted.stringText_encode m.1) space_nil space_gap text
  have colon : String.utf8EncodeChar ':' = [Byte.colon] := rfl
  have space : String.utf8EncodeChar ' ' = [Byte.space] := rfl
  simpa [memberText, Utf8.ofChars_append, Utf8.ofChars_cons, colon, space] using member

/-- The text of a number does not depend on the depth, so what it reads as at the root will do. -/
theorem valueText_number {v : Value} (number : v.isNumber) (back : v.ReadsBack asText)
    (depth : Nat) : ValueText asText (Utf8.ofChars (v.text depth)) v := by
  have same : v.text depth = v.toJson.toList := by
    rw [toList_toJson]
    cases v <;> first | rfl | contradiction
  rw [same]
  exact .number (back number)

theorem valueText_text {v : Value} (numbers : ∀ n ∈ v.nodes, n.ReadsBack asText) (depth : Nat) :
    ValueText asText (Utf8.ofChars (v.text depth)) v := by
  induction v using Value.induct generalizing depth with
  | string s => exact .string (Quoted.stringText_encode s)
  | bool b => exact .keyword (keywordText_bool b)
  | null => exact .keyword .null
  | int n => exact valueText_number rfl (numbers _ (List.mem_singleton.2 rfl)) depth
  | float x => exact valueText_number rfl (numbers _ (List.mem_singleton.2 rfl)) depth
  | literal s => exact valueText_number rfl (numbers _ (List.mem_singleton.2 rfl)) depth
  | array items ih =>
    have inner := (forall_nodes_array.1 numbers).2
    rw [text_array]
    exact .array (bracketed_ofChars (R := fun t v => ValueText asText (Utf8.ofChars t) v) rfl rfl
      (fun _ _ => id) (bracketed_text _ _ depth fun v hv => ih v hv (inner v hv) (depth + 1)))
  | object members ih =>
    have inner := (forall_nodes_object.1 numbers).2
    rw [text_object]
    exact .object (bracketed_ofChars
      (R := fun t m => MemberText (ValueText asText) (Utf8.ofChars t) m) rfl rfl (fun _ _ => id)
      (bracketed_text _ _ depth fun m hm => memberText_text (ih m hm (inner m hm) (depth + 1))))

theorem valueText_toJson {v : Value} (numbers : ∀ n ∈ v.nodes, n.ReadsBack asText) :
    ValueText asText (Utf8.ofString v.toJson) v := by
  rw [Utf8.ofString, toList_toJson]
  exact valueText_text numbers 0

theorem parse_of_numbers {v : Value} {options : Options} (container : v.isArray ∨ v.isObject)
    (numbers : ∀ n ∈ v.nodes, n.ReadsBack options.numbersAsText)
    (depth : v.nesting ≤ options.maxDepth) :
    parse (Utf8.ofString v.toJson) options = .ok v := by
  have text := Document.container_of_kind (valueText_toJson numbers) container
  exact Document.parse_of_document (.of text) depth

/-- The node is no kept literal, and a float is finite and decodes to the same bits from its text. -/
def Exact : Value → Prop
  | literal _ => False
  | float x => x.isFinite ∧
    ∃ y, parseNumber (Utf8.ofString (float x).toJson) = .ok (.float y) ∧ y.toBits = x.toBits
  | _ => True

theorem Exact.readsBack {v : Value} (h : v.Exact) : v.ReadsBack false := by
  intro number
  cases v with
  | int n =>
    rw [toJson, write, String.empty_append, Utf8.ofString_ofList]
    exact Number.numberText_int n
  | float x =>
    obtain ⟨_, y, decoded, bits⟩ := h
    rw [FloatText.float_ext bits] at decoded
    exact parseNumber_eq_ok_iff.1 decoded
  | literal => exact h.elim
  | _ => contradiction

end Value

/-- Parsing what was written gives the tree back, whether or not it came from a parse. -/
theorem parse_toJson {v : Value} {options : Options} (container : v.isArray ∨ v.isObject)
    (exact : ∀ n ∈ v.nodes, n.Exact) (decoding : options.numbersAsText = false)
    (depth : v.nesting ≤ options.maxDepth) : parse (Utf8.ofString v.toJson) options = .ok v :=
  Value.parse_of_numbers container (fun n hn => decoding ▸ (exact n hn).readsBack) depth

theorem parse_toJson_nested :
    parse (Utf8.ofString (Value.object [("", .array [.int Int64.minValue, .float 1.5, .array []]),
      ("", .string "\"\\\x00\u00e9")]).toJson) { maxDepth := 3 } =
        .ok (.object [("", .array [.int Int64.minValue, .float 1.5, .array []]),
          ("", .string "\"\\\x00\u00e9")]) := by
  refine parse_toJson (.inr rfl) ?_ rfl (by decide)
  have decoded : parseNumber (Utf8.ofString (Value.float 1.5).toJson) = .ok (.float 1.5) := by
    rw [Value.toJson, Value.write, String.empty_append, Utf8.ofString_ofList]
    exact FloatText.readsBack_iff.1 (by decide +kernel)
  simp only [Value.nodes, Value.nodesItems, Value.nodesMembers]
  simp only [List.cons_append, List.nil_append, List.append_nil, List.forall_mem_cons]
  exact ⟨trivial, trivial, trivial, ⟨by decide +kernel, _, decoded, rfl⟩, trivial, trivial, by simp⟩

end JsonTree
