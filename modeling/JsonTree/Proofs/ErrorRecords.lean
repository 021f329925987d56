import JsonTree.Proofs.Failing

/-!
What the record of a failure says of the buffer. The offset lies in the buffer or at its end, and the
byte is the one at the offset, but for a literal that a delimiter cuts short: it shows 0, as it would
at the end of the buffer.
-/
namespace JsonTree

/-- A delimiter stands where a literal lacks a digit. A hex literal lacks its first one. -/
def CutShort (bytes : List UInt8) (e : ParseError) : Prop :=
  ∃ b ∈ bytes[e.offset]?, Byte.endsNumber b ∧ b ≠ Byte.nul ∧ (e.kind = .invalidNumber ∨
    e.kind = .invalidHex ∧ ∃ c ∈ bytes[e.offset - 1]?, c = Byte.lowerX ∨ c = Byte.upperX)

/-- The record holds the byte at its offset, or 0 where a literal is cut short. -/
structure Records (bytes : List UInt8) (e : ParseError) : Prop where
  offset : e.offset ≤ bytes.length
  byte : ¬ CutShort bytes e → e.byte = bytes.getD e.offset 0
  cut : CutShort bytes e → e.byte = 0

section

variable {bytes : List UInt8} {t : List UInt8} {input : Input} {f : Fault}

theorem getElem?_offset (h : (Input.ofBytes bytes).Splits t input) (k : Nat) :
    bytes[input.offset + k]? = input.bytes[k]? := by
  have whole : bytes = t ++ input.bytes := h.bytes
  have offset : input.offset = t.length := h.offset.trans (Nat.zero_add _)
  rw [offset, whole, List.getElem?_append_right (Nat.le_add_right _ _), Nat.add_sub_cancel_left]

theorem offset_le (h : (Input.ofBytes bytes).Splits t input) {k : Nat} (le : k ≤ input.bytes.length) :
    input.offset + k ≤ bytes.length := by
  have whole : bytes = t ++ input.bytes := h.bytes
  rw [h.offset, whole, List.length_append]
  exact Nat.add_le_add (Nat.le_of_eq (Nat.zero_add _)) le

theorem records_of_inText (h : (Input.ofBytes bytes).Splits t input) (inside : f.InText input.bytes) :
    Records bytes (f.locate input) := by
  obtain ⟨number, before, left, parts, index, hex⟩ := inside
  have uncut : ¬ CutShort bytes (f.locate input) := by
    rintro ⟨_, _, _, _, same | ⟨same, c, hc, letter⟩⟩
    · exact number same
    · obtain ⟨d, last, other⟩ := hex same
      obtain ⟨first, rfl⟩ := List.getLast?_eq_some_iff.1 last
      have place : (f.locate input).offset - 1 = input.offset + first.length := by
        simp [Fault.locate, index]
      rw [place, getElem?_offset h, parts] at hc
      simp at hc
      subst hc
      exact letter.elim other.1 other.2
  refine ⟨offset_le h (by simp [parts, index]), fun _ => ?_, fun cut => absurd cut uncut⟩
  simp [Fault.locate, getElem?_offset h]

theorem cutShort_of_inLiteral {literal more : List UInt8} {rest : Input} {b : UInt8}
    (h : (Input.ofBytes bytes).Splits t input) (taken : input.Splits literal rest)
    (delimited : rest.Delimited) (left : rest.bytes = b :: more) (filled : b ≠ Byte.nul)
    (inside : f.InLiteral literal) (atEnd : f.index = literal.length) :
    CutShort bytes (f.locate ⟨input.offset, literal⟩) := by
  obtain ⟨kind, _, hex⟩ := inside
  refine ⟨b, ?_, delimited b (by rw [left]; rfl), filled, kind.imp id fun same => ⟨same, ?_⟩⟩
  · have place : (f.locate ⟨input.offset, literal⟩).offset = input.offset + f.index := rfl
    rw [place, getElem?_offset h, taken.bytes, atEnd, left]
    simp
  · obtain ⟨c, last, letter⟩ := hex same atEnd
    obtain ⟨first, rfl⟩ := List.getLast?_eq_some_iff.1 last
    have before : (f.locate ⟨input.offset, first ++ [c]⟩).offset - 1 =
        input.offset + first.length := by
      simp [Fault.locate, atEnd]
    refine ⟨c, ?_, letter⟩
    rw [before, getElem?_offset h, taken.bytes]
    simp

theorem records_of_inLiteral {literal : List UInt8} {rest : Input}
    (h : (Input.ofBytes bytes).Splits t input) (taken : input.Splits literal rest)
    (inner : ∀ b ∈ literal, Byte.endsNumber b = false) (delimited : rest.Delimited)
    (inside : f.InLiteral literal) :
    Records bytes (f.locate ⟨input.offset, literal⟩) := by
  have place : (f.locate ⟨input.offset, literal⟩).offset = input.offset + f.index := rfl
  have le : f.index ≤ input.bytes.length := by
    rw [taken.bytes, List.length_append]
    exact Nat.le_trans inside.index (Nat.le_add_right _ _)
  have shown := getElem?_offset h f.index
  rw [taken.bytes] at shown
  -- Before its end the literal itself holds the byte. At the end the buffer holds what follows.
  rcases Nat.lt_or_eq_of_le inside.index with before | atEnd
  · rw [List.getElem?_append_left before] at shown
    refine ⟨offset_le h le, fun _ => ?_, ?_⟩
    · simp [Fault.locate, shown]
    · rintro ⟨b, hb, ends, _⟩
      rw [place, shown] at hb
      rw [inner b (List.mem_of_getElem? hb)] at ends
      contradiction
  · have zero : (f.locate ⟨input.offset, literal⟩).byte = 0 := by simp [Fault.locate, atEnd]
    refine ⟨offset_le h le, fun uncut => ?_, fun _ => zero⟩
    rw [zero, place, List.getD_eq_getElem?_getD, shown, atEnd,
      List.getElem?_append_right (Nat.le_refl _), Nat.sub_self]
    cases left : rest.bytes with
    | nil => rfl
    | cons b more =>
      by_contra other
      have filled : b ≠ Byte.nul := fun nul => other (by rw [nul]; rfl)
      exact uncut (cutShort_of_inLiteral h taken delimited left filled inside atEnd)

end

theorem records_of_leaf {asText : Bool} {bytes t : List UInt8} {input : Input} {e : ParseError}
    (h : (Input.ofBytes bytes).Splits t input) (leaf : Leaf asText input e) : Records bytes e := by
  cases leaf with
  | @structural kind structural =>
    exact records_of_inText h
      (Fault.inText_of_le (by rintro rfl; contradiction) (by rintro rfl; contradiction) (Nat.zero_le _))
  | string opens failed =>
    obtain ⟨f, inside, rfl⟩ := Quoted.read_inString failed
    exact records_of_inText (h.trans (Input.splits_skip (t := [Byte.quote]) opens)) inside.inText
  | keyword _ kind failed =>
    obtain ⟨f, inside, rfl⟩ := Document.keyword_inText kind failed
    exact records_of_inText h inside
  | number _ _ failed =>
    obtain ⟨literal, rest, taken, inner, delimited⟩ := Number.exists_literal input
    rw [Number.read_eq taken inner delimited] at failed
    split at failed
    · rename_i f decoded
      cases failed
      exact records_of_inLiteral h taken inner delimited (Number.decode_inLiteral decoded)
    · contradiction

/-- The record of a failed parse describes the buffer, and the only records that do not are those of
literals cut short. -/
theorem parse_error_records {bytes : List UInt8} {options : Options} {e : ParseError}
    (h : parse bytes options = .error e) :
    e.offset ≤ bytes.length ∧ (e.byte = bytes.getD e.offset 0 ↔ ¬ CutShort bytes e) ∧
      (CutShort bytes e → e.byte = 0) := by
  obtain ⟨t, rest, taken, leaf⟩ := Document.parse_fails h
  have records := records_of_leaf taken leaf
  refine ⟨records.offset, ⟨fun same cut => ?_, records.byte⟩, records.cut⟩
  have zero := records.cut cut
  obtain ⟨b, hb, _, filled, _⟩ := cut
  rw [List.getD_eq_getElem?_getD, hb, zero] at same
  exact filled same.symm

/-- A sign, with the closing bracket where a digit is required. -/
def signAlone : List UInt8 := [Byte.openBracket, Byte.minus, Byte.closeBracket]

theorem parse_signAlone : parse signAlone = .error ⟨.invalidNumber, 0, 2⟩ := by
  have item : (Reader.separated (Document.value false 1023) Byte.closeBracket).read
      ⟨1, [Byte.minus, Byte.closeBracket]⟩ = .error ⟨.invalidNumber, 0, 2⟩ := rfl
  have root : Document.root {} ⟨0, signAlone⟩ = .error ⟨.invalidNumber, 0, 2⟩ := by
    have items : Reader.items (Document.value false 1023) Byte.closeBracket []
        ⟨1, [Byte.minus, Byte.closeBracket]⟩ = .error ⟨.invalidNumber, 0, 2⟩ :=
      Reader.items_failed item
    have inside : Reader.container (Document.value false 1023) Byte.closeBracket
        ((⟨0, signAlone⟩ : Input).skip 1) = .error ⟨.invalidNumber, 0, 2⟩ := items
    change Document.array (Document.value false 1023) ⟨0, signAlone⟩ = _
    rw [Document.array, inside]
  have gap : (Input.ofBytes signAlone).skipWhitespace = ⟨0, signAlone⟩ := rfl
  simp only [parse, gap, root]

theorem parse_error_records_signAlone : parse signAlone = .error ⟨.invalidNumber, 0, 2⟩ ∧
    CutShort signAlone ⟨.invalidNumber, 0, 2⟩ := by
  refine ⟨parse_signAlone, ?_⟩
  by_contra uncut
  have same := (parse_error_records parse_signAlone).2.1.2 uncut
  contradiction

theorem byte_signAlone : ∃ e, parse signAlone = .error e ∧ e.offset < signAlone.length ∧
    e.byte ≠ signAlone.getD e.offset 0 :=
  ⟨_, parse_signAlone, by decide, by decide⟩

end JsonTree
