import JsonTree.Proofs.Amounts
import JsonTree.Proofs.Integers

/-!
Reading an integer comes down to one number, that of the digits before the first other byte. Whether
it lies in the range decides about overflow, and no step on the way refuses digits whose number does.
-/
namespace JsonTree.Integer

variable {bounds : Bounds} {unit : Int}

/-- The digits before the first other byte, with the sign in front of them. -/
def leadingNumber (text : List UInt8) : Int :=
  (Sign.split text).1.apply (positional 10 ((Sign.split text).2.takeWhile Byte.isDigit))

theorem accumulate_append (n : Int) (text more : List UInt8) :
    accumulate bounds unit n (text ++ more) =
      (accumulate bounds unit n text).bind fun m => accumulate bounds unit m more := by
  induction text generalizing n with
  | nil => rfl
  | cons b rest ih =>
    simp only [List.cons_append, accumulate, ih]
    split
    · rfl
    · split
      · rfl
      · split <;> rfl

/-- Where a byte other than a digit comes next, it is refused. -/
theorem accumulate_stop {rest : List UInt8} (stop : ∀ b ∈ rest.head?, Byte.isDigit b = false)
    (n : Int) :
    accumulate bounds unit n rest = if rest = [] then .ok n else .error .invalidDigit := by
  cases rest with
  | nil => rfl
  | cons b more => simp [accumulate, stop b rfl]

/-- Digits are accumulated as far as they go, and refused there if their number does not fit. -/
theorem accumulate_text (zero : bounds.contains 0) (sign : unit = 1 ∨ unit = -1)
    (text : List UInt8) :
    accumulate bounds unit 0 text =
      if bounds.contains (unit * positional 10 (text.takeWhile Byte.isDigit)) then
        if ∀ b ∈ text, Byte.isDigit b then
          .ok (unit * positional 10 (text.takeWhile Byte.isDigit))
        else .error .invalidDigit
      else .error .overflow := by
  obtain ⟨digits, rest, rfl, all, stop⟩ := Byte.exists_run Byte.isDigit text
  have start : bounds.contains (unit * (0 : Nat)) := by simpa using zero
  have number : extend 0 digits = positional 10 digits := decimalValue_eq all
  have run := accumulate_digits zero sign all start
  rw [number, Int.natCast_zero, Int.mul_zero] at run
  have whole : (∀ b ∈ digits ++ rest, Byte.isDigit b) ↔ rest = [] := by
    cases rest with
    | nil => simpa using all
    | cons b more =>
      have other : ¬ Byte.isDigit b := by simp [stop b rfl]
      simpa using ⟨b, .inr (.inl rfl), by simpa using other⟩
  rw [accumulate_append, run, Byte.takeWhile_run all stop]
  by_cases fits : bounds.contains (unit * positional 10 digits)
  · rw [if_pos fits, if_pos fits]
    simp only [whole]
    exact accumulate_stop stop _
  · rw [if_neg fits, if_neg fits]
    rfl

/-- A sign multiplies by what it makes of one. -/
theorem apply_eq_mul (sign : Sign) (n : Int) : sign.apply n = sign.apply 1 * n := by
  cases sign with
  | minus => exact Int.neg_eq_neg_one_mul n
  | none | plus => exact (Int.one_mul n).symm

theorem apply_one (sign : Sign) : sign.apply 1 = 1 ∨ sign.apply 1 = -1 := by
  cases sign with
  | minus => exact .inr rfl
  | none | plus => exact .inl rfl

theorem read_split {text : List UInt8} (some_byte : text ≠ []) :
    read bounds text = magnitude bounds ((Sign.split text).1.apply 1) (Sign.split text).2 := by
  obtain ⟨b, rest, rfl⟩ := List.exists_cons_of_ne_nil some_byte
  by_cases minus : b = Byte.minus
  · rw [minus]
    rfl
  · by_cases plus : b = Byte.plus
    · rw [plus]
      rfl
    · simp [read, Sign.split, minus, plus, Sign.apply]

/-- What reading comes to on every text. -/
theorem read_text (zero : bounds.contains 0) (text : List UInt8) :
    read bounds text =
      if text = [] then .error .empty
      else if (Sign.split text).2 = [] then .error .signOnly
      else if bounds.contains (leadingNumber text) then
        if ∀ b ∈ (Sign.split text).2, Byte.isDigit b then .ok (leadingNumber text)
        else .error .invalidDigit
      else .error .overflow := by
  by_cases none_left : text = []
  · rw [none_left]
    rfl
  · have body := accumulate_text zero (apply_one (Sign.split text).1) (Sign.split text).2
    rw [← apply_eq_mul] at body
    rw [if_neg none_left, read_split none_left, leadingNumber, ← body]
    cases (Sign.split text).2 <;> rfl

theorem leadingNumber_of_body_nil {text : List UInt8} (h : (Sign.split text).2 = []) :
    leadingNumber text = 0 := by
  rw [leadingNumber, h]
  cases (Sign.split text).1 <;> rfl

theorem body_nil_iff {text : List UInt8} :
    (Sign.split text).2 = [] ↔ text = [] ∨ text = [Byte.plus] ∨ text = [Byte.minus] := by
  constructor
  · intro h
    have whole := Sign.text_split text
    rw [h, List.append_nil] at whole
    rw [← whole]
    cases (Sign.split text).1 <;> simp [Sign.text]
  · rintro (rfl | rfl | rfl) <;> rfl

theorem of_read_ok (zero : bounds.contains 0) {text : List UInt8} {n : Int}
    (h : read bounds text = .ok n) :
    (Sign.split text).2 ≠ [] ∧ (∀ b ∈ (Sign.split text).2, Byte.isDigit b) ∧
      bounds.contains n ∧ n = leadingNumber text := by
  rw [read_text zero] at h
  split at h
  · contradiction
  · split at h
    · contradiction
    · rename_i some_digit
      split at h
      · rename_i fits
        split at h
        · rename_i all
          cases h
          exact ⟨some_digit, all, fits, rfl⟩
        · contradiction
      · contradiction

/-- Reading gives an integer just where a sign and digits denote one of the range, and it is that
one. The sign may be missing. Otherwise the digits before the first other byte tell whether an
overflow is reported or that byte. -/
theorem read_strict (zero : bounds.contains 0) (text : List UInt8) :
    (∀ n, read bounds text = .ok n ↔ ∃ (sign : Sign) (digits : List UInt8),
      text = sign.text ++ digits ∧ digits ≠ [] ∧ (∀ b ∈ digits, Byte.isDigit b) ∧
        n = sign.apply (positional 10 digits) ∧ bounds.contains n) ∧
    (read bounds text = .error .empty ↔ text = []) ∧
    (read bounds text = .error .signOnly ↔ text = [Byte.plus] ∨ text = [Byte.minus]) ∧
    (read bounds text = .error .overflow ↔ ¬ bounds.contains (leadingNumber text)) ∧
    (read bounds text = .error .invalidDigit ↔
      bounds.contains (leadingNumber text) ∧ ∃ b ∈ (Sign.split text).2, ¬ Byte.isDigit b) := by
  refine ⟨fun n => ⟨fun read => ?_, ?_⟩, ?_⟩
  · obtain ⟨some_digit, all, fits, rfl⟩ := of_read_ok zero read
    have taken := List.takeWhile_eq_self_iff.2 all
    refine ⟨_, _, (Sign.text_split text).symm, some_digit, all, ?_, fits⟩
    rw [leadingNumber, taken]
  · rintro ⟨sign, digits, rfl, some_digit, all, rfl, fits⟩
    rw [read_digits zero some_digit all, decimalValue_eq all, if_pos fits]
  · have outcome := read_text zero text
    by_cases lone : (Sign.split text).2 = []
    · have fits : bounds.contains (leadingNumber text) := by
        rwa [leadingNumber_of_body_nil lone]
      rcases body_nil_iff.1 lone with rfl | rfl | rfl <;> simp [outcome, fits, lone]
    · obtain ⟨some_byte, other⟩ := not_or.1 (mt body_nil_iff.2 lone)
      rw [if_neg some_byte, if_neg lone] at outcome
      by_cases fits : bounds.contains (leadingNumber text)
      · rw [if_pos fits] at outcome
        by_cases all : ∀ b ∈ (Sign.split text).2, Byte.isDigit b
        · rw [if_pos all] at outcome
          simpa [outcome, some_byte, other, fits] using all
        · rw [if_neg all] at outcome
          simpa [outcome, some_byte, other, fits] using all
      · rw [if_neg fits] at outcome
        simp [outcome, some_byte, other, fits]

/-- The least signed number, a zero with a minus, and an overflow in front of another byte. -/
theorem read_strict_least :
    (signed.contains 0 ∧ read signed (Utf8.ofString "-009223372036854775808") = .ok (-2 ^ 63)) ∧
      (unsigned.contains 0 ∧ read unsigned (Utf8.ofString "-00000000000000000000000") = .ok 0) ∧
      (unsigned.contains 0 ∧
        read unsigned (Utf8.ofString "18446744073709551616x") = .error .overflow) := by
  have signed_zero : signed.contains 0 := by decide
  have unsigned_zero : unsigned.contains 0 := by decide
  refine ⟨⟨signed_zero, ?_⟩, ⟨unsigned_zero, ?_⟩, unsigned_zero, ?_⟩
  · exact ((read_strict signed_zero _).1 _).2
      ⟨.minus, Utf8.ofString "009223372036854775808", rfl,
        by decide, by decide, by decide, by decide⟩
  · exact ((read_strict unsigned_zero _).1 _).2
      ⟨.minus, Utf8.ofString "00000000000000000000000", rfl,
        by decide, by decide, by decide, by decide⟩
  · exact (read_strict unsigned_zero _).2.2.2.1.2 (by decide)

end JsonTree.Integer
