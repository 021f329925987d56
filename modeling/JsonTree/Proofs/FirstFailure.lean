import JsonTree.Proofs.NumberModes

/-!
A document whose numbers are all literals fails, with its numbers decoded, at the first literal that
does not decode, and it fails there as that literal does by itself.
-/
namespace JsonTree

open Grammar

namespace Document

/-- The failure of a literal by itself, moved to where the literal starts. -/
def literalFailure (l : Nat × List UInt8) : Option ParseError :=
  match parseNumber l.2 with
  | .error e => some ⟨e.kind, e.byte, l.1 + e.offset⟩
  | .ok _ => none

/-- The failure of the first literal that has one, of those in a text at the offset. -/
def firstFailure (offset : Nat) (t : List UInt8) : Option ParseError :=
  (literals offset t).findSome? literalFailure

variable {t u w : List UInt8} {ls : List (List UInt8)} {offset : Nat} {e : ParseError}

theorem literalFailure_eq_none_iff {l : Nat × List UInt8} :
    literalFailure l = none ↔ ∃ v, parseNumber l.2 = .ok v := by
  unfold literalFailure
  split <;> simp [*]

theorem Silent.firstFailure (h : Silent w) (offset : Nat) (t : List UInt8) :
    firstFailure offset (w ++ t) = firstFailure (offset + w.length) t := by
  rw [Document.firstFailure, h]
  rfl

theorem Scans.firstFailure_append (h : Scans t ls) (ends : Ends u) :
    firstFailure offset (t ++ u) =
      (firstFailure offset t).or (firstFailure (offset + t.length) u) := by
  rw [firstFailure, h.append _ _ ends, List.findSome?_append]
  rfl

theorem Scans.firstFailure_silent (h : Scans t ls) (g : Silent w) (ends : Ends w) :
    firstFailure offset (t ++ w) = firstFailure offset t := by
  have none_after : firstFailure (offset + t.length) w = none := by
    rw [firstFailure, g.literals, List.findSome?_nil]
  rw [h.firstFailure_append ends, none_after, Option.or_none]

theorem Scans.firstFailure_eq_none_iff (h : Scans t ls) :
    firstFailure offset t = none ↔ ∀ text ∈ ls, ∃ v, parseNumber text = .ok v := by
  rw [firstFailure, List.findSome?_eq_none_iff, ← h.texts offset, List.forall_mem_map]
  simp only [literalFailure_eq_none_iff]

end Document

open Document

namespace Reader

variable {α : Type} {item : Reader α} {t : List UInt8} {input rest : Input} {e : ParseError}

def FailsFirst (item : Reader α) (t : List UInt8) : Prop :=
  ∀ ⦃input rest e⦄, input.Splits t rest → rest.Delimited →
    firstFailure input.offset t = some e → item.read input = .error e

/-- The reader takes the text if all literals of it decode, and otherwise fails as the first that
does not. -/
structure Agrees (item : Reader α) (t : List UInt8) : Prop where
  leads : Leads t
  scans : ∃ ls, Scans t ls
  takes : ∀ offset, firstFailure offset t = none → ∃ a, item.Takes t a
  fails : item.FailsFirst t

section

variable {β : Type} {b : β} {bs : List β}

theorem scans_padded (h : Padded (fun t _ => item.Agrees t) t b) : ∃ ls, Scans t ls := by
  obtain ⟨before, agrees, after⟩ := h
  obtain ⟨ls, scans⟩ := agrees.scans
  exact ⟨ls, Document.scans_padded (fun _ => id) (.mk before scans after)⟩

theorem firstFailure_padded {w t w' : List UInt8} {ls : List (List UInt8)} (before : Space w)
    (scans : Scans t ls) (after : Space w') (offset : Nat) :
    firstFailure offset (w ++ t ++ w') = firstFailure (offset + w.length) t := by
  rw [List.append_assoc, (silent_space before).firstFailure,
    scans.firstFailure_silent (silent_space after) (ends_space after)]

theorem takes_padded (h : Padded (fun t _ => item.Agrees t) t b) {offset : Nat}
    (decodes : firstFailure offset t = none) :
    ∃ a, Padded (fun t a => Leads t ∧ item.Takes t a) t a := by
  obtain ⟨before, agrees, after⟩ := h
  obtain ⟨ls, scans⟩ := agrees.scans
  rw [firstFailure_padded before scans after] at decodes
  obtain ⟨a, takes⟩ := agrees.takes _ decodes
  exact ⟨a, .mk before ⟨agrees.leads, takes⟩ after⟩

theorem scans_separated (h : Separated (Padded fun t _ => item.Agrees t) t bs) :
    ∃ ls, Scans t ls := by
  have each : Separated (Padded fun t _ => ∃ ls, Scans t ls ∧ True) t bs :=
    h.mono fun t b _ => Padded.mono fun t agrees =>
      agrees.scans.imp fun _ scans => ⟨scans, trivial⟩
  obtain ⟨lss, scans, _⟩ := each.choose
  exact ⟨_, Document.scans_separated (fun _ _ => id) scans⟩

variable {close : UInt8} (closes : close = Byte.closeBracket ∨ close = Byte.closeBrace)
include closes

theorem separated_agrees (more : Bool) (h : Padded (fun t _ => item.Agrees t) t b)
    (g : input.Splits (t ++ [if more then Byte.comma else close]) rest)
    (failed : firstFailure input.offset t = some e) :
    (separated item close).read input = .error e := by
  obtain ⟨before, agrees, after⟩ := h
  obtain ⟨ls, scans⟩ := agrees.scans
  obtain ⟨first, delimited⟩ := separated_inside closes before agrees.leads after more g
  rw [firstFailure_padded before scans after] at failed
  rw [List.append_assoc, List.append_assoc] at g
  have inner := agrees.fails first.left delimited (by rw [g.offset_eq first, failed])
  simp only [separated, inner]

theorem items_agree (h : Separated (Padded fun t _ => item.Agrees t) t bs) {done : List α}
    (g : input.Splits (t ++ [close]) rest) (failed : firstFailure input.offset t = some e) :
    items item close done input = .error e := by
  -- Items before the failing one are taken, and what follows it is not looked at.
  induction h generalizing done input with
  | last first => exact items_failed (separated_agrees closes false first g failed)
  | @more t u b bs first others ih =>
    obtain ⟨ls, scans⟩ := scans_padded first
    have comma : firstFailure (input.offset + t.length) (Byte.comma :: u) =
        firstFailure (input.offset + t.length + 1) u :=
      (silent_byte (by decide) (by decide)).firstFailure _ u
    rw [scans.firstFailure_append (by rintro _ ⟨⟩; decide), comma] at failed
    rw [List.append_assoc, List.cons_append, List.append_cons] at g
    cases decodes : firstFailure input.offset t with
    | some e' =>
      rw [decodes] at failed
      cases failed
      exact items_failed (separated_agrees closes true first g.left decodes)
    | none =>
      obtain ⟨a, taken⟩ := takes_padded first decodes
      rw [decodes, Option.none_or] at failed
      rw [items_more (separated_of_splits closes true taken g.left)]
      exact ih g.right (by simpa [Input.skip, Nat.add_assoc] using failed)

theorem container_agrees {first : UInt8} (opens : Silent [first]) (shuts : Silent [close])
    (h : Bracketed (fun t _ => item.Agrees t) first close t bs) (g : input.Splits t rest)
    (failed : firstFailure input.offset t = some e) :
    container item close (input.skip 1) = .error e := by
  have final : Ends [close] := by rintro _ ⟨⟩; exact endsNumber_separator closes false
  cases h with
  | empty space =>
    have silent := (opens.append (silent_space space)).append shuts
    rw [firstFailure, List.cons_append, ← List.singleton_append, ← List.append_assoc,
      silent.literals] at failed
    contradiction
  | items inside =>
    obtain ⟨w, u, start, rfl, space, others, taken, same⟩ :=
      container_inside closes item (fun _ _ (agrees : item.Agrees _) => agrees.leads) inside g
    rw [same]
    refine items_agree closes others taken ?_
    obtain ⟨ls, scans⟩ := scans_separated others
    have parts : first :: (w ++ u) ++ [close] = [first] ++ w ++ (u ++ [close]) := by simp
    rw [parts] at g failed
    rw [(opens.append (silent_space space)).firstFailure,
      scans.firstFailure_silent shuts final] at failed
    rw [g.offset_eq taken, failed]

end

end Reader

namespace Document

variable {t : List UInt8} {value : Reader Value} {v : Value} {levels : Nat}

theorem member_agrees {m : String × Value} (h : MemberText (fun t _ => value.Agrees t) t m) :
    (memberReader value).Agrees t := by
  have leads := leads_member h
  obtain ⟨name, before, after, agrees⟩ := h
  rename_i k w w' t key _
  obtain ⟨ls, scans⟩ := agrees.scans
  have colon : Silent [Byte.colon] := silent_byte (by decide) (by decide)
  have silent := (((silent_string name).append (silent_space before)).append colon).append
    (silent_space after)
  have parts : k ++ w ++ Byte.colon :: w' ++ t = k ++ w ++ [Byte.colon] ++ w' ++ t := by simp
  refine ⟨leads, ⟨ls, parts ▸ silent.before scans⟩, fun offset decodes => ?_,
    fun input rest e g delimited failed => ?_⟩
  · rw [parts, silent.firstFailure] at decodes
    obtain ⟨v, takes⟩ := agrees.takes _ decodes
    exact ⟨(key, v), member_takes (.mk name before after ⟨agrees.leads, takes⟩)⟩
  · obtain ⟨inside, taken, same⟩ := member_inside value name before after agrees.leads g
    rw [parts] at g failed
    rw [silent.firstFailure, ← g.offset_eq taken] at failed
    rw [same, agrees.fails taken delimited failed]

theorem number_failsFirst {input rest : Input} {e : ParseError} (h : NumberText true t v)
    (g : input.Splits t rest) (delimited : rest.Delimited)
    (failed : firstFailure input.offset t = some e) : Number.read false input = .error e := by
  rw [firstFailure, literals_number_alone h, List.findSome?_singleton, literalFailure,
    parseNumber_eq h.inner] at failed
  rw [Number.read_eq g h.inner delimited]
  cases decoded : Number.decode false t with
  | ok w => simp [decoded] at failed
  | error f =>
    simp only [decoded, Option.some.injEq] at failed
    rw [← failed]
    simp [Fault.locate]

theorem agrees_of_failsFirst (h : ValueText true t v) (deep : v.nesting ≤ levels)
    (fails : (Document.value false levels).FailsFirst t) :
    (Document.value false levels).Agrees t := by
  refine ⟨leads_value h, ⟨_, scans_value h⟩, fun offset decodes => ?_, fails⟩
  have each := (scans_value h).firstFailure_eq_none_iff.1 decodes
  obtain ⟨w, text, related⟩ := valueText_decoded h (by simpa using each)
  rw [Decodes.nesting_eq _ _ related] at deep
  exact ⟨w, value_takes text levels deep⟩

theorem value_failsFirst (h : ValueText true t v) :
    ∀ levels, v.nesting ≤ levels → (Document.value false levels).FailsFirst t := by
  have bracket : ∀ {b : UInt8}, b = Byte.openBracket ∨ b = Byte.closeBracket ∨
      b = Byte.openBrace ∨ b = Byte.closeBrace → Silent [b] := by
    rintro b (rfl | rfl | rfl | rfl) <;> exact silent_byte (by decide) (by decide)
  refine ValueText.induct (P := fun t v => ∀ levels, v.nesting ≤ levels →
    (Document.value false levels).FailsFirst t) ?array ?object ?string ?keyword ?number h
  case array =>
    intro t items inside levels deep input rest e g _ failed
    obtain ⟨below, rfl, each⟩ := Value.nesting_array_le.1 deep
    have agrees : Bracketed (fun t _ => (Document.value false below).Agrees t) Byte.openBracket
        Byte.closeBracket t items := inside.mono fun _ v hv both =>
      agrees_of_failsFirst both.1 (each v hv) (both.2 below (each v hv))
    obtain ⟨left, opens⟩ := Reader.exists_opening inside g
    have read := Reader.container_agrees (.inl rfl) (bracket (by simp)) (bracket (by simp)) agrees
      g failed
    rw [value_read_array below opens, array, read]
  case object =>
    intro t members inside levels deep input rest e g _ failed
    obtain ⟨below, rfl, each⟩ := Value.nesting_object_le.1 deep
    have agrees : Bracketed (fun t _ => (memberReader (Document.value false below)).Agrees t)
        Byte.openBrace Byte.closeBrace t members := inside.mono fun _ m hm member =>
      member_agrees (member.mono (S := fun t _ => (Document.value false below).Agrees t)
        fun _ both => agrees_of_failsFirst both.1 (each m hm) (both.2 below (each m hm)))
    obtain ⟨left, opens⟩ := Reader.exists_opening inside g
    have read := Reader.container_agrees (.inr rfl) (bracket (by simp)) (bracket (by simp)) agrees
      g failed
    rw [value_read_object below opens, object, read]
  case string =>
    intro t s text levels _ input rest e _ _ failed
    rw [firstFailure, (silent_string text).literals] at failed
    contradiction
  case keyword =>
    intro t v word levels _ input rest e _ _ failed
    rw [firstFailure, (silent_keyword word).literals] at failed
    contradiction
  case number =>
    intro t v text levels _ input rest e g delimited failed
    obtain ⟨b, first, starts⟩ := text.starts
    obtain ⟨more, rfl⟩ := List.head?_eq_some_iff.1 first
    rw [value_read_number levels g.bytes starts, number_failsFirst text g delimited failed]

/-- A document with a literal that does not decode fails at the first such literal. -/
theorem parse_firstFailure {input : List UInt8} {maxDepth : Nat} {e : ParseError}
    (h : DocumentText true input v) (depth : v.nesting ≤ maxDepth)
    (failed : firstFailure 0 input = some e) :
    parse input { numbersAsText := false, maxDepth } = .error e := by
  obtain ⟨before, inner, after⟩ := h
  rename_i w t w'
  have inside := root_inside before inner w'
  have start : (Input.ofBytes (w ++ t ++ w')).skipWhitespace.offset = 0 + w.length := by
    have last : w.length + t.length = _ := inside.offset
    omega
  have delimited : Input.Delimited ⟨w.length + t.length, w'⟩ := fun b hb =>
    Byte.endsNumber_of_isWhitespace (after b (List.mem_of_mem_head? hb))
  have text := value_of_container inner
  rw [Reader.firstFailure_padded before (scans_value text) after] at failed
  have opens := head_container inner
  obtain ⟨b, first, _⟩ := leads_value text
  obtain ⟨more, rfl⟩ := List.head?_eq_some_iff.1 first
  have read := value_failsFirst text maxDepth depth inside delimited (by rw [start, failed])
  have same : (Input.ofBytes (w ++ b :: more ++ w')).skipWhitespace.bytes.head? =
      (b :: more).head? := by rw [inside.bytes]; rfl
  simp only [parse, root, same, if_pos opens, read]

theorem document_kept {input : List UInt8} (h : DocumentText false input v) :
    ∃ w, DocumentText true input w ∧ Decodes w v := by
  obtain ⟨before, inner, after⟩ := h
  obtain ⟨w, text, related⟩ := valueText_kept (value_of_container inner)
  exact ⟨w, .mk before (container_of_value text (head_container inner)) after, related⟩

theorem document_decoded {input : List UInt8} (h : DocumentText true input v)
    (fits : ∀ text ∈ v.literals, ∃ n, parseNumber (Utf8.ofString text) = .ok n) :
    ∃ w, DocumentText false input w ∧ Decodes v w := by
  obtain ⟨before, inner, after⟩ := h
  obtain ⟨w, text, related⟩ := valueText_decoded (value_of_container inner) fits
  exact ⟨w, .mk before (container_of_value text (head_container inner)) after, related⟩

end Document

theorem parseNumber_error_kind {t : List UInt8} {e : ParseError}
    (inner : ∀ b ∈ t, Byte.endsNumber b = false) (failed : parseNumber t = .error e) :
    e.kind = .invalidNumber ∨ e.kind = .invalidHex := by
  rw [parseNumber_eq inner] at failed
  split at failed
  · rename_i decoded
    cases failed
    exact (Number.decode_inLiteral decoded).kind
  · contradiction

/-- The two ways of reading numbers agree. A document that reads with its numbers decoded reads with
them kept, to the same tree but for the numbers. One that reads with them kept reads with them
decoded if each of them does, and otherwise fails as the first of them that does not, at its place. -/
theorem parse_number_modes (input : List UInt8) (maxDepth : Nat) :
    (∀ v, parse input { numbersAsText := false, maxDepth } = .ok v →
      ∃ w, parse input { numbersAsText := true, maxDepth } = .ok w ∧ Decodes w v) ∧
    (∀ w, parse input { numbersAsText := true, maxDepth } = .ok w →
      (literals 0 input).map (·.2) = w.literals.map Utf8.ofString ∧
      (∀ l ∈ literals 0 input, ∃ before after, input = before ++ l.2 ++ after ∧
        l.1 = before.length) ∧
      ((∃ v, parse input { numbersAsText := false, maxDepth } = .ok v) ↔
        ∀ text ∈ w.literals, ∃ v, parseNumber (Utf8.ofString text) = .ok v) ∧
      ∀ passed l left e, literals 0 input = passed ++ l :: left →
        (∀ p ∈ passed, ∃ v, parseNumber p.2 = .ok v) → parseNumber l.2 = .error e →
        parse input { numbersAsText := false, maxDepth } =
            .error ⟨e.kind, e.byte, l.1 + e.offset⟩ ∧
          (e.kind = .invalidNumber ∨ e.kind = .invalidHex)) ∧
    (∀ e, parse input { numbersAsText := true, maxDepth } = .error e →
      ∃ e', parse input { numbersAsText := false, maxDepth } = .error e') := by
  have kept : ∀ v, parse input { numbersAsText := false, maxDepth } = .ok v →
      ∃ w, parse input { numbersAsText := true, maxDepth } = .ok w ∧ Decodes w v := by
    intro v h
    obtain ⟨text, depth⟩ := parse_sound h
    obtain ⟨w, document, related⟩ := document_kept text
    have deep : w.nesting ≤ maxDepth := by rwa [Decodes.nesting_eq _ _ related]
    exact ⟨w, parse_of_document document deep, related⟩
  refine ⟨kept, fun w h => ?_, fun e h => ?_⟩
  · obtain ⟨text, depth⟩ := parse_sound h
    have scans := scans_document text
    refine ⟨scans.texts 0, by simpa using literals_at 0 input,
      ⟨?_, fun fits => ?_⟩, fun passed l left e found before failed => ⟨?_, ?_⟩⟩
    · rintro ⟨v, decoded⟩
      cases failed : firstFailure 0 input with
      | none => simpa using scans.firstFailure_eq_none_iff.1 failed
      | some e => cases decoded.symm.trans (parse_firstFailure text depth failed)
    · obtain ⟨v, document, related⟩ := document_decoded text fits
      have deep : v.nesting ≤ maxDepth := by rwa [← Decodes.nesting_eq _ _ related]
      exact ⟨v, parse_of_document document deep⟩
    · refine parse_firstFailure text depth ?_
      have none_before : passed.findSome? literalFailure = none :=
        List.findSome?_eq_none_iff.2 fun p hp => literalFailure_eq_none_iff.2 (before p hp)
      rw [firstFailure, found, List.findSome?_append, none_before, Option.none_or,
        List.findSome?_cons, literalFailure, failed]
    · exact parseNumber_error_kind (inner_literals 0 input l (by simp [found])) failed
  · cases decoded : parse input { numbersAsText := false, maxDepth } with
    | error e' => exact ⟨e', rfl⟩
    | ok v =>
      obtain ⟨w, same, _⟩ := kept v decoded
      cases same.symm.trans h

/-- The second of two literals is out of range, which shows only where numbers are decoded. -/
theorem parse_number_modes_outOfRange :
    parse (Utf8.ofString "[1,1e999]") { numbersAsText := true, maxDepth := 1 } =
        .ok (.array [.literal "1", .literal "1e999"]) ∧
      parse (Utf8.ofString "[1,1e999]") { numbersAsText := false, maxDepth := 1 } =
        .error ⟨.invalidNumber, Byte.lowerE, 4⟩ := by
  have one : NumberText true [0x31] (.literal "1") := Number.numberText_iff.2 rfl
  have great : NumberText true (Utf8.ofString "1e999") (.literal "1e999") :=
    Number.numberText_iff.2 rfl
  have inside : Bracketed (ValueText true) Byte.openBracket Byte.closeBracket
      (Utf8.ofString "[1,1e999]") [.literal "1", .literal "1e999"] :=
    .items (.more (.of (ValueText.number one)) (.last (.of (ValueText.number great))))
  have text : DocumentText true (Utf8.ofString "[1,1e999]")
      (.array [.literal "1", .literal "1e999"]) := Padded.of inside
  have kept : parse (Utf8.ofString "[1,1e999]") { numbersAsText := true, maxDepth := 1 } = .ok _ :=
    parse_of_document text (by decide)
  have found : literals 0 (Utf8.ofString "[1,1e999]") =
      [(1, [0x31])] ++ (3, Utf8.ofString "1e999") :: [] := by decide +kernel
  have before : ∃ v, parseNumber [0x31] = .ok v := ⟨.int 1, rfl⟩
  have failed : parseNumber (Utf8.ofString "1e999") = .error ⟨.invalidNumber, Byte.lowerE, 1⟩ := rfl
  exact ⟨kept, (((parse_number_modes _ 1).2.1 _ kept).2.2.2 _ _ _ _ found (by simpa using before)
    failed).1⟩

end JsonTree
