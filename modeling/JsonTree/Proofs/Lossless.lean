import JsonTree.Proofs.Scanning
import JsonTree.Proofs.Writing

/-!
Documents whose numbers are kept as text are written without loss: the text that is written for a
tree that was read reads as the same tree, and it has the literals of the document in their order.
-/
namespace JsonTree

open Grammar

/-- A literal is kept as it stands, and what is written for it is that text. -/
theorem Value.readsBack_literal {t : List UInt8} {v : Value} (h : NumberText true t v) :
    v.ReadsBack true := by
  intro _
  have kept := Number.ofString_literalText h.decoded
  cases (Number.decode_kept h.decoded).symm.trans h.decoded
  rwa [toJson, write, String.empty_append, kept]

theorem Value.readsBack_of_text {t : List UInt8} {v : Value} (h : ValueText true t v) :
    ∀ n ∈ v.nodes, n.ReadsBack true := by
  refine ValueText.induct (P := fun _ (v : Value) => ∀ n ∈ v.nodes, n.ReadsBack true)
    ?array ?object ?string ?keyword ?number h
  case array =>
    intro t items inside
    refine forall_nodes_array.2 ⟨nofun, ?_⟩
    exact inside.all fun _ _ => And.right
  case object =>
    intro t members inside
    refine forall_nodes_object.2 ⟨nofun, ?_⟩
    exact inside.all fun _ _ =>
      MemberText.value (p := fun (v : Value) => ∀ n ∈ v.nodes, n.ReadsBack true) fun _ _ => And.right
  case string => exact fun _ _ _ => List.forall_mem_singleton.2 nofun
  case keyword =>
    intro t v word
    cases word <;> exact List.forall_mem_singleton.2 nofun
  case number =>
    intro t v text
    have back := readsBack_literal text
    cases (Number.decode_kept text.decoded).symm.trans text.decoded
    exact List.forall_mem_singleton.2 back

theorem Document.isContainer {asText : Bool} {input : List UInt8} {v : Value}
    (h : DocumentText asText input v) : v.isArray ∨ v.isObject := by
  obtain ⟨_, inner, _⟩ := h
  cases v with
  | array => exact .inl rfl
  | object => exact .inr rfl
  | _ => exact inner.elim

/-- What was read with its numbers kept is written as a text that reads as the same tree under the
same options. The text has the literals of the document byte for byte, and writing what is read from
it gives the text again. -/
theorem parse_toJson_kept {input : List UInt8} {options : Options} {v : Value}
    (kept : options.numbersAsText = true) (h : parse input options = .ok v) :
    parse (Utf8.ofString v.toJson) options = .ok v ∧
      (Document.literals 0 (Utf8.ofString v.toJson)).map (·.2) =
        (Document.literals 0 input).map (·.2) ∧
      ∀ w, parse (Utf8.ofString v.toJson) options = .ok w → w.toJson = v.toJson := by
  obtain ⟨text, depth⟩ := Document.parse_sound h
  have container := Document.isContainer text
  rw [kept] at text
  obtain ⟨_, inner, _⟩ := id text
  have numbers := Value.readsBack_of_text (Document.value_of_container inner)
  have again : parse (Utf8.ofString v.toJson) options = .ok v :=
    Value.parse_of_numbers container (by rwa [kept]) depth
  have written := (Document.parse_sound again).1
  rw [kept] at written
  refine ⟨again, ?_, fun w same => ?_⟩
  · rw [(Document.scans_document written).texts, (Document.scans_document text).texts]
  · cases same.symm.trans again
    rfl

/-- A number out of range and a hex literal with a sign, as deep as the limit allows. -/
theorem parse_toJson_kept_outOfRange :
    parse (Utf8.ofString "[1e999,[-0X0f]]") { numbersAsText := true, maxDepth := 2 } =
        .ok (.array [.literal "1e999", .array [.literal "-0X0f"]]) ∧
      parse (Utf8.ofString (Value.array [.literal "1e999", .array [.literal "-0X0f"]]).toJson)
        { numbersAsText := true, maxDepth := 2 } =
          .ok (.array [.literal "1e999", .array [.literal "-0X0f"]]) := by
  have great : NumberText true (Utf8.ofString "1e999") (.literal "1e999") :=
    Number.numberText_iff.2 rfl
  have hex : NumberText true (Utf8.ofString "-0X0f") (.literal "-0X0f") :=
    Number.numberText_iff.2 rfl
  have inner : ValueText true (Utf8.ofString "[-0X0f]") (.array [.literal "-0X0f"]) :=
    .array (.items (.last (.of (ValueText.number hex))))
  have inside : Bracketed (ValueText true) Byte.openBracket Byte.closeBracket
      (Utf8.ofString "[1e999,[-0X0f]]") [.literal "1e999", .array [.literal "-0X0f"]] :=
    .items (.more (.of (ValueText.number great)) (.last (.of inner)))
  have text : DocumentText true (Utf8.ofString "[1e999,[-0X0f]]")
      (.array [.literal "1e999", .array [.literal "-0X0f"]]) := Padded.of inside
  have read : parse (Utf8.ofString "[1e999,[-0X0f]]") { numbersAsText := true, maxDepth := 2 } =
      .ok _ := Document.parse_of_document text (by decide)
  exact ⟨read, (parse_toJson_kept rfl read).1⟩

end JsonTree
