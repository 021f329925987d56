import JsonTree.Proofs.Amounts
import Mathlib.Algebra.Order.Ring.Int
import Mathlib.Tactic.Linarith

/-!
Integers are exact. An integer that is decoded is the number its literal denotes, a hex literal is
decoded as far as it fits 64 bits with a sign, and a decimal that denotes an integer is decoded to it
as long as its power of ten fits too. That leaves out zeros with a great exponent, which are floats.
-/
namespace JsonTree

/-! ### Decimal integers -/

/-- Where a product fits, what is scaled up fits. -/
theorem Integer.contains_of_scaled {m : Int} {k : Nat} (h : signed.contains (m * 10 ^ k)) :
    signed.contains m := by
  have scale : (1 : Int) ≤ 10 ^ k := one_le_pow₀ (by decide)
  rw [signed_contains] at h ⊢
  rcases Int.le_total 0 m with positive | negative
  · have grows := le_mul_of_one_le_right positive scale
    omega
  · have shrinks := mul_le_of_one_le_right negative scale
    omega

namespace DecimalLiteral

variable {d : DecimalLiteral}

/-- Only a zero fits under a power of ten that does not. -/
theorem power_le_of_contains (other : d.mantissa ≠ 0)
    (h : Integer.signed.contains (d.mantissa * 10 ^ d.power.toNat)) : d.power ≤ greatestPower := by
  by_contra beyond
  have greatest : (greatestPower : Int) = 18 := rfl
  have great : (10 : Int) ^ 19 ≤ 10 ^ d.power.toNat := pow_le_pow_right₀ (by decide) (by omega)
  rw [Integer.signed_contains] at h
  rcases Int.lt_or_gt_of_ne other with negative | positive
  · have product : d.mantissa * 10 ^ d.power.toNat ≤ -10 ^ d.power.toNat := by nlinarith
    omega
  · have product : 10 ^ d.power.toNat ≤ d.mantissa * 10 ^ d.power.toNat := by nlinarith
    omega

namespace WellFormed

variable (h : d.WellFormed)
include h

theorem read_mantissa (point : d.point = false) :
    Integer.read Integer.signed (d.sign.text ++ d.whole) =
      if Integer.signed.contains d.mantissa then .ok d.mantissa else .error .overflow := by
  have some_digit : d.whole ≠ [] :=
    h.some_digit.resolve_right (· (h.fraction_eq_nil point))
  have zero : Integer.signed.contains 0 := by decide
  rw [Integer.read_digits zero some_digit h.whole, decimalValue_eq h.whole]
  rfl

/-- The counted power is in the range of powers that fit just when the power is. -/
theorem countedPower_usable : 0 ≤ d.countedPower ∧ d.countedPower ≤ greatestPower ↔
    0 ≤ d.power ∧ d.power ≤ greatestPower := by
  have counted := h.countedPower_or
  have limit : (greatestPower : Int) < Exponent.limit := by decide
  have least : (0 : Int) ≤ greatestPower := by decide
  omega

theorem countedPower_eq (low : 0 ≤ d.power) (high : d.power ≤ greatestPower) :
    d.countedPower = d.power := by
  have counted := h.countedPower_or
  have limit : (greatestPower : Int) < Exponent.limit := by decide
  omega

/-- Which literals are integers, and which integers they are. -/
theorem int?_eq : d.int? d.countedPower =
    if d.point = false ∧ (0 ≤ d.power ∧ d.power ≤ greatestPower) ∧
        Integer.signed.contains (d.mantissa * 10 ^ d.power.toNat) then
      some (d.mantissa * 10 ^ d.power.toNat)
    else none := by
  rw [int?]
  by_cases refused : (d.point || d.countedPower < 0 || d.countedPower > greatestPower) = true
  · rw [if_pos refused, if_neg]
    rintro ⟨point, usable, _⟩
    obtain ⟨low, high⟩ := h.countedPower_usable.2 usable
    simp only [Bool.or_eq_true, decide_eq_true_eq, point, Bool.false_eq_true, false_or] at refused
    omega
  · simp only [Bool.or_eq_true, decide_eq_true_eq, not_or, Bool.not_eq_true, not_lt] at refused
    obtain ⟨⟨point, low⟩, high⟩ := refused
    have usable := h.countedPower_usable.1 ⟨low, high⟩
    have power : Nat.pow 10 d.countedPower.toNat = 10 ^ d.power.toNat := by
      rw [h.countedPower_eq usable.1 usable.2]
      rfl
    rw [if_neg (by simpa [point] using ⟨low, high⟩), h.read_mantissa point, power]
    by_cases scaled : Integer.signed.contains (d.mantissa * 10 ^ d.power.toNat)
    · simp [point, usable, scaled, Integer.contains_of_scaled scaled]
    · by_cases fits : Integer.signed.contains d.mantissa <;> simp [fits, scaled]

/-- An integer that a decimal is decoded to fits a word and is the amount. -/
theorem amount_of_int? {z : Int} (int : d.int? d.countedPower = some z) :
    Integer.signed.contains z ∧ (z : ℚ) = d.amount := by
  rw [h.int?_eq] at int
  split at int
  · rename_i usable
    obtain ⟨point, ⟨low, _⟩, fits⟩ := usable
    cases int
    refine ⟨fits, ?_⟩
    rw [h.amount_eq point, Int.cast_mul, Int.cast_pow, ← zpow_natCast, Int.toNat_of_nonneg low]
    rfl
  · contradiction

end WellFormed

end DecimalLiteral

/-! ### Hex integers -/

namespace HexLiteral

theorem accumulate_eq {digits : List UInt8} (all : ∀ b ∈ digits, Byte.isHexDigit b) {n : Nat}
    (start : n < 2 ^ 64) : accumulate n digits =
      if n * 16 ^ digits.length + positional 16 digits < 2 ^ 64 then
        some (n * 16 ^ digits.length + positional 16 digits)
      else none := by
  induction digits generalizing n with
  | nil => simpa [accumulate, positional] using start
  | cons b rest ih =>
    have value := Byte.hexValue_eq_rank (all b (by simp))
    have longer : n * 16 ^ (b :: rest).length + positional 16 (b :: rest) =
        (n * 16 + Byte.hexValue b) * 16 ^ rest.length + positional 16 rest := by
      rw [positional_cons, value, List.length_cons, Nat.pow_succ']
      ring
    rw [longer]
    by_cases next : n * 16 + Byte.hexValue b < 2 ^ 64
    · have taken : accumulate n (b :: rest) = accumulate (n * 16 + Byte.hexValue b) rest := if_pos next
      rw [taken]
      exact ih (fun b hb => all b (by simp [hb])) next
    · have refused : accumulate n (b :: rest) = none := if_neg next
      have places : 1 ≤ 16 ^ rest.length := Nat.one_le_pow _ _ (by decide)
      have grows := Nat.le_mul_of_pos_right (n * 16 + Byte.hexValue b) places
      rw [refused, if_neg (by omega)]

variable {h : HexLiteral}

theorem WellFormed.int?_eq (formed : h.WellFormed) :
    h.int? = if Integer.signed.contains h.integer then some h.integer else none := by
  have start : 0 < 2 ^ 64 := by decide
  have magnitude := accumulate_eq formed.digits start
  rw [Nat.zero_mul, Nat.zero_add] at magnitude
  rw [int?, magnitude]
  by_cases fits : positional 16 h.digits < 2 ^ 64
  · rw [if_pos fits]
    rfl
  · have beyond : ¬ Integer.signed.contains h.integer := by
      rw [Integer.signed_contains, integer, Sign.apply]
      split <;> omega
    rw [if_neg fits, if_neg beyond]

/-- A literal that does not fit is reported at its first digit, behind the sign and `0x`. -/
theorem parseNumber_hex (formed : h.WellFormed) : parseNumber h.text =
    if Integer.signed.contains h.integer then .ok (.int (Int64.ofInt h.integer))
    else .error ⟨.invalidHex, h.digits.head formed.some_digit, h.sign.text.length + 2⟩ := by
  have first : h.text[h.sign.text.length + 2]?.getD 0 = h.digits.head formed.some_digit := by
    obtain ⟨b, rest, same⟩ := List.exists_cons_of_ne_nil formed.some_digit
    simp [HexLiteral.text, same]
  have decoded := parseNumber_text (l := .hex h) formed
  simp only [Literal.text, Literal.value, value, formed.int?_eq] at decoded
  rw [decoded]
  by_cases fits : Integer.signed.contains h.integer
  · simp [fits]
  · simp [fits, Fault.locate, first]

end HexLiteral

theorem toInt_ofInt {z : Int} (fits : Integer.signed.contains z) : (Int64.ofInt z).toInt = z := by
  obtain ⟨low, high⟩ := Integer.signed_contains.1 fits
  exact Int64.toInt_ofInt_of_le low high

theorem Literal.amount_of_parseNumber {l : Literal} {n : Int64} (formed : l.WellFormed)
    (h : parseNumber l.text = .ok (.int n)) : (n.toInt : ℚ) = l.amount := by
  cases l with
  | hex h' =>
    rw [Literal.text, HexLiteral.parseNumber_hex formed] at h
    split at h
    · rename_i fits
      cases h
      rw [toInt_ofInt fits]
      rfl
    · contradiction
  | decimal d =>
    rw [Literal.text, DecimalLiteral.WellFormed.parseNumber_text formed] at h
    split at h
    · rename_i z int
      obtain ⟨fits, same⟩ := DecimalLiteral.WellFormed.amount_of_int? formed int
      cases h
      rw [toInt_ofInt fits]
      exact same
    · split at h <;> cases h

/-- An integer that is decoded is the number denoted, with nothing wrapped or cut off, and every hex
literal whose integer fits a signed word of 64 bits is decoded to it. -/
theorem parseNumber_exact (bytes : List UInt8) :
    (∀ n, parseNumber bytes = .ok (.int n) →
      ∃ l : Literal, l.WellFormed ∧ l.text = bytes ∧ (n.toInt : ℚ) = l.amount) ∧
    ∀ (h : HexLiteral) (formed : h.WellFormed), h.text = bytes →
      if -2 ^ 63 ≤ h.integer ∧ h.integer ≤ 2 ^ 63 - 1 then
        ∃ n, parseNumber bytes = .ok (.int n) ∧ n.toInt = h.integer
      else parseNumber bytes =
        .error ⟨.invalidHex, h.digits.head formed.some_digit, h.sign.text.length + 2⟩ := by
  constructor
  · intro n parsed
    obtain ⟨l, formed, rfl, _⟩ := Number.decode_eq_ok_iff.1 (parseNumber_eq_ok_iff.1 parsed).decoded
    exact ⟨l, formed, rfl, Literal.amount_of_parseNumber formed parsed⟩
  · rintro h formed rfl
    have range : Integer.signed.contains h.integer ↔ -2 ^ 63 ≤ h.integer ∧ h.integer ≤ 2 ^ 63 - 1 := by
      rw [Integer.signed_contains]
      omega
    rw [HexLiteral.parseNumber_hex formed]
    split
    · rename_i fits
      rw [← range] at fits
      exact ⟨_, if_pos fits, toInt_ofInt fits⟩
    · rename_i beyond
      rw [← range] at beyond
      exact if_neg beyond

/-- The least integer of a word, with a zero in front. -/
def leastHex : HexLiteral := ⟨.minus, Byte.upperX, [0x30, 0x38] ++ List.replicate 15 0x30⟩

theorem parseNumber_exact_least :
    ∃ n, parseNumber leastHex.text = .ok (.int n) ∧ n.toInt = -2 ^ 63 := by
  have formed : leastHex.WellFormed := by decide
  have integer : leastHex.integer = -2 ^ 63 := by decide
  have exact := (parseNumber_exact leastHex.text).2 leastHex formed rfl
  rwa [integer, if_pos (by decide)] at exact

/-! ### Scaled integers -/

namespace DecimalLiteral.WellFormed

variable {d : DecimalLiteral} (h : d.WellFormed)
include h

theorem parseNumber_scaled (point : d.point = false) (low : 0 ≤ d.power)
    (fits : Integer.signed.contains (d.mantissa * 10 ^ d.power.toNat))
    (high : d.mantissa ≠ 0 ∨ d.power ≤ greatestPower) :
    parseNumber d.text = .ok (.int (Int64.ofInt (d.mantissa * 10 ^ d.power.toNat))) := by
  have usable : d.power ≤ greatestPower := high.elim (power_le_of_contains · fits) id
  have int : d.int? d.countedPower = some (d.mantissa * 10 ^ d.power.toNat) := by
    rw [h.int?_eq, if_pos ⟨point, ⟨low, usable⟩, fits⟩]
  rw [h.parseNumber_text, int]

theorem parseNumber_beyond (beyond : ¬ Integer.signed.contains (d.mantissa * 10 ^ d.power.toNat))
    (n : Int64) : parseNumber d.text ≠ .ok (.int n) := by
  have int : d.int? d.countedPower = none := by
    rw [h.int?_eq, if_neg fun usable => beyond usable.2.2]
  rw [h.parseNumber_text, int]
  cases d.float d.countedPower <;> simp

/-- Under a power of ten that does not fit, a zero is a float. -/
theorem parseNumber_zero (point : d.point = false) (zero : d.mantissa = 0)
    (high : greatestPower < d.power) :
    parseNumber d.text = .ok (.float (if d.sign = .minus then -0.0 else 0.0)) := by
  have int : d.int? d.countedPower = none := by
    rw [h.int?_eq, if_neg fun usable => absurd usable.2.1.2 (by omega)]
  have zeros : ∀ b ∈ d.whole, b = Byte.zero := by
    rw [← positional_eq_zero_iff h.whole]
    simp only [mantissa, Sign.apply] at zero
    split at zero <;> omega
  have none_given : d.significant = [] := by
    simpa [significant_eq_nil_iff, digits, h.fraction_eq_nil point] using zeros
  have float : d.float d.countedPower = .ok (if d.sign = .minus then -0.0 else 0.0) := by
    simp [DecimalLiteral.float, none_given]
  rw [h.parseNumber_text, int, float]

end DecimalLiteral.WellFormed

/-- A decimal without a point, under a power of ten that is not negative, is decoded to the integer it
denotes where that fits a signed word of 64 bits, and to no integer where it does not. A zero under a
power of ten above `10^18` is the exception, a float of the sign of the literal. -/
theorem parseNumber_integral {d : DecimalLiteral} (formed : d.WellFormed) (point : d.point = false)
    (power : 0 ≤ d.power) :
    (-2 ^ 63 ≤ d.mantissa * 10 ^ d.power.toNat ∧ d.mantissa * 10 ^ d.power.toNat ≤ 2 ^ 63 - 1 →
      d.mantissa ≠ 0 ∨ d.power ≤ 18 →
      ∃ n, parseNumber d.text = .ok (.int n) ∧ n.toInt = d.mantissa * 10 ^ d.power.toNat) ∧
    (¬ (-2 ^ 63 ≤ d.mantissa * 10 ^ d.power.toNat ∧ d.mantissa * 10 ^ d.power.toNat ≤ 2 ^ 63 - 1) →
      ∀ n, parseNumber d.text ≠ .ok (.int n)) ∧
    (d.mantissa = 0 → 18 < d.power →
      parseNumber d.text = .ok (.float (if d.sign = .minus then -0.0 else 0.0))) := by
  have range : Integer.signed.contains (d.mantissa * 10 ^ d.power.toNat) ↔
      -2 ^ 63 ≤ d.mantissa * 10 ^ d.power.toNat ∧ d.mantissa * 10 ^ d.power.toNat ≤ 2 ^ 63 - 1 := by
    rw [Integer.signed_contains]
    omega
  rw [← range]
  refine ⟨fun fits high => ?_, fun beyond => formed.parseNumber_beyond beyond, fun zero high => ?_⟩
  · exact ⟨_, formed.parseNumber_scaled point power fits high, toInt_ofInt fits⟩
  · exact formed.parseNumber_zero point zero high

/-- Zero, moved by nineteen places. -/
def zeroScaled : DecimalLiteral :=
  ⟨.none, [Byte.zero], false, [], some ⟨Byte.lowerE, .none, [0x31, 0x39]⟩⟩

/-- The greatest power of ten that fits, nine times, below zero. -/
def greatScaled : DecimalLiteral :=
  ⟨.minus, [0x39], false, [], some ⟨Byte.upperE, .plus, [0x30, 0x31, 0x38]⟩⟩

theorem parseNumber_integral_great :
    (∃ n, parseNumber greatScaled.text = .ok (.int n) ∧ n.toInt = -9 * 10 ^ 18) ∧
      parseNumber zeroScaled.text = .ok (.float 0.0) := by
  have great : greatScaled.WellFormed := by decide
  have zero : zeroScaled.WellFormed := by decide
  constructor
  · exact (parseNumber_integral great rfl (by decide)).1 (by decide) (.inl (by decide))
  · exact (parseNumber_integral zero rfl (by decide)).2.2 (by decide) (by decide)

theorem zeroScaled_not_int : zeroScaled.WellFormed ∧ zeroScaled.point = false ∧ 0 ≤ zeroScaled.power ∧
    zeroScaled.mantissa * 10 ^ zeroScaled.power.toNat = 0 ∧
    ∀ n, parseNumber zeroScaled.text ≠ .ok (.int n) := by
  have formed : zeroScaled.WellFormed := by decide
  have float := formed.parseNumber_zero rfl (by decide) (by decide)
  refine ⟨formed, rfl, by decide, by decide, ?_⟩
  intro n same
  cases same.symm.trans float

end JsonTree
