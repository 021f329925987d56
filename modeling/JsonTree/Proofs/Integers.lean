import JsonTree.Number.Decode
import JsonTree.Proofs.Literals
import JsonTree.Proofs.Utf8

/-!
Decimal integers. Digits are read as their value where it fits and refused where it does not, and the
digits of a number read as the number.
-/
namespace JsonTree

namespace Integer

variable {bounds : Bounds} {unit : Int}

theorem signed_contains {n : Int} : signed.contains n ↔
    -0x8000000000000000 ≤ n ∧ n < 0x8000000000000000 := by
  simp only [Bounds.contains, Bool.and_eq_true, decide_eq_true_eq]
  exact and_congr_right fun _ => Int.le_sub_one_iff

theorem unsigned_contains {n : Nat} : unsigned.contains n ↔ n < 2 ^ 64 := by
  have least : unsigned.least = 0 := rfl
  have greatest : unsigned.greatest = 2 ^ 64 - 1 := rfl
  simp only [Bounds.contains, least, greatest, Bool.and_eq_true, decide_eq_true_eq]
  omega

theorem contains_of_le (zero : bounds.contains 0) (sign : unit = 1 ∨ unit = -1) {m n : Nat}
    (le : m ≤ n) (h : bounds.contains (unit * n)) : bounds.contains (unit * m) := by
  simp only [Bounds.contains, Bool.and_eq_true, decide_eq_true_eq] at zero h ⊢
  rcases sign with rfl | rfl <;> omega

/-- The value of digits that follow a number already read. -/
def extend (n : Nat) (digits : List UInt8) : Nat :=
  digits.foldl (fun n b => n * 10 + Byte.digitValue b) n

theorem extend_append (n : Nat) (digits more : List UInt8) :
    extend n (digits ++ more) = extend (extend n digits) more :=
  List.foldl_append

theorem le_extend (n : Nat) (digits : List UInt8) : n ≤ extend n digits := by
  induction digits generalizing n with
  | nil => exact Nat.le_refl n
  | cons b rest ih =>
    have step := ih (n * 10 + Byte.digitValue b)
    change n ≤ extend (n * 10 + Byte.digitValue b) rest
    omega

/-- Digits extend a number by no more than their count of places. -/
theorem extend_lt {digits : List UInt8} (all : ∀ b ∈ digits, Byte.isDigit b) (n : Nat) :
    extend n digits < (n + 1) * 10 ^ digits.length := by
  induction digits generalizing n with
  | nil => simp [extend]
  | cons b rest ih =>
    have low := Byte.digitValue_le (all b (by simp))
    have later := ih (fun b hb => all b (by simp [hb])) (n * 10 + Byte.digitValue b)
    rw [List.length_cons, Nat.pow_succ', ← Nat.mul_assoc]
    exact Nat.lt_of_lt_of_le later (Nat.mul_le_mul_right _ (by omega))

/-- Digits are accumulated as far as they fit, and those that do not fit are refused. -/
theorem accumulate_digits (zero : bounds.contains 0) (sign : unit = 1 ∨ unit = -1)
    {digits : List UInt8} (all : ∀ b ∈ digits, Byte.isDigit b) {n : Nat}
    (start : bounds.contains (unit * n)) :
    accumulate bounds unit (unit * n) digits =
      if bounds.contains (unit * extend n digits) then .ok (unit * extend n digits)
      else .error .overflow := by
  induction digits generalizing n with
  | nil => exact (if_pos start).symm
  | cons b rest ih =>
    have next := le_extend (n * 10 + Byte.digitValue b) rest
    have shifted : unit * n * 10 = unit * (n * 10 : Nat) := by
      rw [Int.natCast_mul, Int.mul_assoc]; rfl
    have added : unit * (n * 10 : Nat) + unit * Byte.digitValue b =
        unit * (n * 10 + Byte.digitValue b : Nat) := by
      rw [Int.natCast_add, Int.mul_add]
    have longer : extend n (b :: rest) = extend (n * 10 + Byte.digitValue b) rest := rfl
    simp only [accumulate, all b (by simp), shifted, added, longer, Bool.not_true]
    -- Where a step does not fit, no number that starts with it does.
    by_cases shifts : bounds.contains (unit * (n * 10 : Nat))
    · by_cases adds : bounds.contains (unit * (n * 10 + Byte.digitValue b : Nat))
      · simp only [shifts, adds, Bool.not_true]
        exact ih (fun b hb => all b (by simp [hb])) adds
      · rw [if_neg (mt (contains_of_le zero sign next) adds)]
        simp only [shifts, eq_false_of_ne_true adds]
        rfl
    · have beyond := mt (contains_of_le zero sign (Nat.le_trans (Nat.le_add_right _ _) next)) shifts
      rw [if_neg beyond]
      simp only [eq_false_of_ne_true shifts]
      rfl

theorem magnitude_digits (zero : bounds.contains 0) (sign : unit = 1 ∨ unit = -1)
    {digits : List UInt8} (some_digit : digits ≠ []) (all : ∀ b ∈ digits, Byte.isDigit b) :
    magnitude bounds unit digits = if bounds.contains (unit * decimalValue digits) then
      .ok (unit * decimalValue digits) else .error .overflow := by
  have start : bounds.contains (unit * (0 : Nat)) := by simpa using zero
  have whole := accumulate_digits zero sign all start
  rw [Int.natCast_zero, Int.mul_zero] at whole
  cases digits with
  | nil => contradiction
  | cons => exact whole

theorem read_digits (zero : bounds.contains 0) {sign : Sign} {digits : List UInt8}
    (some_digit : digits ≠ []) (all : ∀ b ∈ digits, Byte.isDigit b) :
    read bounds (sign.text ++ digits) = if bounds.contains (sign.apply (decimalValue digits)) then
      .ok (sign.apply (decimalValue digits)) else .error .overflow := by
  have positive := magnitude_digits zero (.inl rfl) some_digit all
  rw [Int.one_mul] at positive
  cases sign with
  | minus =>
    have negative := magnitude_digits zero (.inr rfl) some_digit all
    rw [Int.neg_one_mul] at negative
    exact negative
  | plus => exact positive
  | none =>
    have signless : read bounds (Sign.none.text ++ digits) = magnitude bounds 1 digits := by
      obtain ⟨b, rest, rfl⟩ := List.exists_cons_of_ne_nil some_digit
      obtain ⟨minus, plus⟩ := Byte.isDigit_ne (all b (by simp))
      simp [read, Sign.text, minus, plus]
    exact signless.trans positive

def digits (n : Nat) : List UInt8 := Utf8.ofChars (Nat.toDigits 10 n)

def digit (n : Nat) : UInt8 := UInt8.ofNat (0x30 + n)

theorem encode_digitChar {n : Nat} (h : n < 10) : String.utf8EncodeChar n.digitChar = [digit n] := by
  have each : ∀ n : Fin 10, String.utf8EncodeChar n.val.digitChar = [digit n.val] := by decide
  exact each ⟨n, h⟩

theorem isDigit_digit {n : Nat} (h : n < 10) : Byte.isDigit (digit n) := by
  have each : ∀ n : Fin 10, Byte.isDigit (digit n.val) := by decide
  exact each ⟨n, h⟩

theorem digitValue_digit {n : Nat} (h : n < 10) : Byte.digitValue (digit n) = n := by
  have each : ∀ n : Fin 10, Byte.digitValue (digit n.val) = n.val := by decide
  exact each ⟨n, h⟩

theorem digits_of_lt {n : Nat} (h : n < 10) : digits n = [digit n] := by
  rw [digits, Nat.toDigits_of_lt_base h, Utf8.ofChars, List.flatMap_singleton, encode_digitChar h]

theorem digits_of_le {n : Nat} (h : 10 ≤ n) : digits n = digits (n / 10) ++ [digit (n % 10)] := by
  rw [digits, Nat.toDigits_of_base_le (by decide) h, Utf8.ofChars_append, ← digits, Utf8.ofChars,
    List.flatMap_singleton, encode_digitChar (Nat.mod_lt n (by decide))]

theorem isDigit_digits (n : Nat) : ∀ b ∈ digits n, Byte.isDigit b := by
  induction n using Nat.strongRecOn with
  | ind n ih =>
    by_cases small : n < 10
    · simp [digits_of_lt small, isDigit_digit small]
    · rw [digits_of_le (by omega), List.forall_mem_append]
      exact ⟨ih _ (by omega), by simpa using isDigit_digit (Nat.mod_lt n (by decide))⟩

theorem decimalValue_digits (n : Nat) : decimalValue (digits n) = n := by
  induction n using Nat.strongRecOn with
  | ind n ih =>
    by_cases small : n < 10
    · simp [digits_of_lt small, decimalValue, digitValue_digit small]
    · have last := digitValue_digit (Nat.mod_lt n (by decide : 0 < 10))
      change extend 0 (digits n) = n
      rw [digits_of_le (by omega), extend_append]
      change extend 0 (digits (n / 10)) * 10 + Byte.digitValue (digit (n % 10)) = n
      rw [last, show extend 0 (digits (n / 10)) = n / 10 from ih _ (by omega)]
      omega

theorem digits_ne_nil (n : Nat) : digits n ≠ [] := by
  by_cases small : n < 10
  · simp [digits_of_lt small]
  · simp [digits_of_le (Nat.le_of_not_lt small)]

theorem length_digits_le {n places : Nat} (some_place : 0 < places) (h : n < 10 ^ places) :
    (digits n).length ≤ places := by
  induction places generalizing n with
  | zero => contradiction
  | succ places ih =>
    by_cases small : n < 10
    · simp [digits_of_lt small]
    · have fewer : n / 10 < 10 ^ places := Nat.div_lt_of_lt_mul (by rwa [← Nat.pow_succ'])
      have others : 0 < places := by
        apply Nat.pos_of_ne_zero
        rintro rfl
        exact small h
      rw [digits_of_le (Nat.le_of_not_lt small), List.length_append]
      exact Nat.succ_le_succ (ih others fewer)

/-- Only zero is written with a zero first. -/
theorem unpadded_digits {n : Nat} (h : (digits n).head? = some Byte.zero) :
    (digits n).length = 1 := by
  -- The first digit is that of `n / 10`, so a zero there makes `n / 10` zero and `n` one digit.
  induction n using Nat.strongRecOn with
  | ind n ih =>
    by_cases small : n < 10
    · rw [digits_of_lt small]; rfl
    · rw [digits_of_le (by omega)] at h
      obtain ⟨b, more, same⟩ := List.exists_cons_of_ne_nil (digits_ne_nil (n / 10))
      rw [same] at h
      cases h
      have one := ih (n / 10) (by omega) (by rw [same]; rfl)
      rw [same, List.length_cons, Nat.add_eq_right, List.length_eq_zero_iff] at one
      have value := decimalValue_digits (n / 10)
      rw [same, one] at value
      have zero : decimalValue [Byte.zero] = 0 := by decide
      omega

end Integer

def Integer.literal (n : Int) : DecimalLiteral :=
  ⟨if n < 0 then .minus else .none, Integer.digits n.natAbs, false, [], none⟩

theorem Integer.literal_wellFormed (n : Int) : (Integer.literal n).WellFormed where
  some_digit := .inl (digits_ne_nil _)
  whole := isDigit_digits _
  unpadded := unpadded_digits
  pointed := by simp [literal]
  fraction := by simp [literal]
  exponent := by simp [literal]

theorem Integer.text_literal (n : Int) : (Integer.literal n).text = Utf8.ofChars (Integer.text n) := by
  have whole : (Integer.literal n).text = (Integer.literal n).sign.text ++ digits n.natAbs := by
    simp [DecimalLiteral.text, DecimalLiteral.significandText, literal]
  rw [whole, text]
  by_cases negative : n < 0
  · rw [if_pos negative, Utf8.ofChars_cons, literal, if_pos negative]
    rfl
  · rw [if_neg negative, literal, if_neg negative]
    rfl

theorem Integer.value_literal (n : Int) :
    (Integer.literal n).sign.apply (decimalValue (Integer.literal n).whole) = n := by
  simp only [literal, decimalValue_digits]
  by_cases negative : n < 0
  · rw [if_pos negative, Sign.apply, if_pos rfl]
    omega
  · rw [if_neg negative, Sign.apply, if_neg (by decide)]
    omega

theorem DecimalLiteral.value_digits {d : DecimalLiteral} (formed : d.WellFormed)
    (point : d.point = false) (exponent : d.exponent = none)
    (fits : Integer.signed.contains (d.sign.apply (decimalValue d.whole))) :
    d.value = .ok (.int (Int64.ofInt (d.sign.apply (decimalValue d.whole)))) := by
  have some_digit : d.whole ≠ [] :=
    formed.some_digit.resolve_right (· (formed.fraction_eq_nil point))
  have zero : Integer.signed.contains 0 := by decide
  have int : d.int? 0 = some (d.sign.apply (decimalValue d.whole)) := by
    simp [int?, point, greatestPower, Integer.read_digits zero some_digit formed.whole, fits]
  simp [value, exponent, valueAt, int]

/-- The short way for one digit gives what the full way gives. -/
theorem Number.decode_eq (asText : Bool) (bytes : List UInt8) :
    decode asText bytes = decodeValidated asText bytes := by
  unfold decode
  split
  · rename_i b
    split
    · rename_i digit
      -- One digit is a literal without sign, point and exponent.
      let d : DecimalLiteral := ⟨.none, [b], false, [], none⟩
      have formed : d.WellFormed :=
        ⟨.inl (by simp [d]), by simpa [d] using digit, by simp [d], by simp [d], by simp [d],
          by simp [d]⟩
      have literal : Literal.read [b] = .ok (.decimal d) := Literal.read_eq_ok_iff.2 ⟨formed, rfl⟩
      have same : d.sign.apply (decimalValue d.whole) = (Byte.digitValue b : Int) := by
        simp [d, Sign.apply, decimalValue]
      have fits : Integer.signed.contains (Byte.digitValue b : Int) := by
        have low := Byte.digitValue_le digit
        rw [Integer.signed_contains]
        omega
      have value := d.value_digits formed rfl rfl (by rwa [same])
      rw [same, Int64.ofInt_eq_ofNat] at value
      simp only [decodeValidated, literal, Literal.value, value]
      cases asText <;> rfl
    · rfl
  · rfl

/-- Every integer of 64 bits reads back from its text. -/
theorem Number.decode_text (n : Int64) :
    decode false (Utf8.ofChars (Integer.text n.toInt)) = .ok (.int n) := by
  have formed := Integer.literal_wellFormed n.toInt
  have read : Literal.read (Utf8.ofChars (Integer.text n.toInt)) =
      .ok (.decimal (Integer.literal n.toInt)) :=
    Literal.read_eq_ok_iff.2 ⟨formed, Integer.text_literal n.toInt⟩
  have same := Integer.value_literal n.toInt
  have fits : Integer.signed.contains n.toInt := Integer.signed_contains.2 ⟨n.le_toInt, n.toInt_lt⟩
  have value := DecimalLiteral.value_digits formed rfl rfl (by rwa [same])
  rw [same, Int64.ofInt_toInt] at value
  simp [decode_eq, decodeValidated, read, Literal.value, value]

end JsonTree
