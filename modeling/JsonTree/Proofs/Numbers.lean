import JsonTree.Proofs.Grammar
import JsonTree.Proofs.Integers

/-!
Numbers as text. What the decoder accepts are the well-formed literals, in either mode, and a literal
means the same alone as between delimiters.
-/
namespace JsonTree

open Grammar

namespace Number

variable {asText : Bool} {t : List UInt8} {v : Value}

theorem decodeValidated_eq_ok_iff : decodeValidated asText t = .ok v ↔ ∃ l : Literal,
    l.WellFormed ∧ l.text = t ∧ (if asText then .ok (.literal (literalText t)) else l.value) = .ok v := by
  unfold decodeValidated
  split
  · rename_i f failed
    simp only [reduceCtorEq, false_iff]
    rintro ⟨l, formed, same, _⟩
    cases failed.symm.trans (Literal.read_eq_ok_iff.2 ⟨formed, same⟩)
  · rename_i l read
    constructor
    · intro h
      obtain ⟨formed, same⟩ := Literal.read_eq_ok_iff.1 read
      exact ⟨l, formed, same, h⟩
    · rintro ⟨l', formed, same, h⟩
      cases read.symm.trans (Literal.read_eq_ok_iff.2 ⟨formed, same⟩)
      exact h

theorem decode_eq_ok_iff : decode asText t = .ok v ↔ ∃ l : Literal,
    l.WellFormed ∧ l.text = t ∧ (if asText then .ok (.literal (literalText t)) else l.value) = .ok v := by
  rw [decode_eq, decodeValidated_eq_ok_iff]

/-- Whatever the decoder accepts opens like a number and has no delimiter in it. -/
theorem numberText_iff : NumberText asText t v ↔ decode asText t = .ok v := by
  constructor
  · exact NumberText.decoded
  · intro h
    obtain ⟨l, formed, rfl, _⟩ := decode_eq_ok_iff.1 h
    exact ⟨formed.head_text, fun b hb => (formed.isInner b hb).2, h⟩

theorem ofString_literalText (h : decode asText t = .ok v) : Utf8.ofString (literalText t) = t := by
  obtain ⟨l, formed, rfl, _⟩ := decode_eq_ok_iff.1 h
  exact Utf8.ofString_ofBytes fun b hb => (formed.isInner b hb).1

/-- Where text is kept, no literal is out of range. -/
theorem decode_kept (h : decode asText t = .ok v) : decode true t = .ok (.literal (literalText t)) := by
  obtain ⟨l, formed, same, _⟩ := decode_eq_ok_iff.1 h
  exact decode_eq_ok_iff.2 ⟨l, formed, same, rfl⟩

theorem numberText_int (n : Int64) :
    NumberText false (Utf8.ofChars (Integer.text n.toInt)) (.int n) :=
  numberText_iff.2 (decode_text n)

end Number

theorem parseNumber_eq {t : List UInt8} (inner : ∀ b ∈ t, Byte.endsNumber b = false) :
    parseNumber t = match Number.decode false t with
      | .error f => .error (f.locate ⟨0, t⟩)
      | .ok v => .ok v := by
  have whole : t.takeWhile (!Byte.endsNumber ·) = t := by simpa using inner
  simp only [parseNumber, Number.read, Input.ofBytes, whole]
  cases Number.decode false t with
  | error => rfl
  | ok => simp [Input.skip]

theorem parseNumber_eq_ok_iff {t : List UInt8} {v : Value} :
    parseNumber t = .ok v ↔ NumberText false t v := by
  constructor
  · intro h
    simp only [parseNumber, Number.read, Input.ofBytes] at h
    split at h
    · contradiction
    · rename_i read
      split at read
      · contradiction
      · rename_i decoded
        cases read
        split at h
        · rename_i none_left
          cases h
          rw [List.isEmpty_iff, Input.skip, List.drop_eq_nil_iff] at none_left
          rw [(List.takeWhile_prefix _).eq_of_length_le none_left] at decoded
          exact Number.numberText_iff.2 decoded
        · contradiction
  · intro h
    rw [parseNumber_eq h.inner, h.decoded]

end JsonTree
