import JsonTree.Proofs.Amounts
import Mathlib.Algebra.Order.Field.Power
import Mathlib.Algebra.Order.Field.Rat
import Mathlib.Tactic.Positivity
import Mathlib.Tactic.FieldSimp
import Mathlib.Tactic.Linarith

/-!
Floats by their leading digits. A decimal that is no integer is reduced to the number that its first
significant digits form and the place of the last of them. The two bound the number denoted from both
sides, they are exact where no digit was left out, and the float depends on nothing else but the sign.
-/
namespace JsonTree

namespace DecimalLiteral

/-- The number that the digits that count form. -/
def leadingNumber (d : DecimalLiteral) : Nat := positional 10 d.leading

/-- The float for the number `n` at the place `10^net`. -/
def floatAt (n : Nat) (net : Int) : Float :=
  PowerOfTen.scale
    (1.0e9 * (n / 10 ^ 9).toUInt64.toFloat + (n % 10 ^ 9).toUInt64.toFloat) net

def signed (d : DecimalLiteral) (x : Float) : Float := if d.sign = .minus then -x else x

/-- A number with the place of its last digit, as the leading digits of a literal. -/
structure Leads (d : DecimalLiteral) (exponent : Int) (n : Nat) (net : Int) : Prop where
  first : n = positional 10 (d.significant.take (min d.significant.length 18))
  high : d.highHalf < 10 ^ 9
  low : d.lowHalf < 10 ^ 9
  halves : n = d.highHalf * 10 ^ 9 + d.lowHalf
  least : n * 10 ^ net ≤ d.magnitudeAt exponent
  beyond : d.magnitudeAt exponent < (n + 1) * 10 ^ net
  exact : d.significant.length ≤ 18 → n * 10 ^ net = d.magnitudeAt exponent
  far : 511 < net.natAbs → 10 ^ 512 ≤ d.magnitudeAt exponent ∨ d.magnitudeAt exponent < 10 ^ (-494 : ℤ)

namespace WellFormed

variable {d : DecimalLiteral} (h : d.WellFormed)
include h

theorem isDigit_significant : ∀ b ∈ d.significant, Byte.isDigit b :=
  fun b hb => h.isDigit_digits b ((List.dropWhile_sublist _).mem hb)

theorem isDigit_leading : ∀ b ∈ d.leading, Byte.isDigit b :=
  fun b hb => h.isDigit_significant b (List.mem_of_mem_take hb)

/-- Zeros in front do not count. -/
theorem positional_significant : positional 10 d.significant = positional 10 d.digits := by
  have parts : d.digits.takeWhile (· == Byte.zero) ++ d.significant = d.digits :=
    List.takeWhile_append_dropWhile
  have zeros : positional 10 (d.digits.takeWhile (· == Byte.zero)) = 0 := by
    rw [positional_eq_zero_iff fun b hb => h.isDigit_digits b ((List.takeWhile_sublist _).mem hb)]
    intro b hb
    simpa using List.mem_takeWhile_imp hb
  rw [← parts, positional_append, zeros, Nat.zero_mul, Nat.zero_add]

/-! ### The halves -/

theorem highHalf_eq : d.highHalf = positional 10 (d.leading.take (d.leading.length - chunk)) :=
  decimalValue_eq fun b hb => h.isDigit_leading b (List.mem_of_mem_take hb)

theorem lowHalf_eq : d.lowHalf = positional 10 (d.leading.drop (d.leading.length - chunk)) :=
  decimalValue_eq fun b hb => h.isDigit_leading b (List.mem_of_mem_drop hb)

theorem highHalf_lt : d.highHalf < 10 ^ 9 := by
  have few : d.leading.length ≤ 18 := List.length_take_le _ _
  rw [h.highHalf_eq]
  apply positional_lt fun b hb => h.isDigit_leading b (List.mem_of_mem_take hb)
  rw [List.length_take, chunk]
  omega

theorem lowHalf_lt : d.lowHalf < 10 ^ 9 := by
  rw [h.lowHalf_eq]
  apply positional_lt fun b hb => h.isDigit_leading b (List.mem_of_mem_drop hb)
  rw [List.length_drop, chunk]
  omega

/-- The low half has nine digits, or there is no high half. -/
theorem leadingNumber_eq : d.leadingNumber = d.highHalf * 10 ^ 9 + d.lowHalf := by
  have parts := positional_append 10 (d.leading.take (d.leading.length - chunk))
    (d.leading.drop (d.leading.length - chunk))
  rw [List.take_append_drop, ← h.highHalf_eq, ← h.lowHalf_eq, List.length_drop] at parts
  rw [leadingNumber, parts]
  by_cases long : 9 ≤ d.leading.length
  · have nine : d.leading.length - (d.leading.length - chunk) = 9 := by
      rw [chunk]
      omega
    rw [nine]
  · have none_high : d.highHalf = 0 := by
      have short : d.leading.length - chunk = 0 := by
        rw [chunk]
        omega
      rw [highHalf, short]
      rfl
    rw [none_high, Nat.zero_mul, Nat.zero_mul]

theorem leadingNumber_lt : d.leadingNumber < 10 ^ 18 :=
  positional_lt h.isDigit_leading (List.length_take_le _ _)

/-- The first significant digit is none of the zeros. -/
theorem leadingNumber_pos (other : d.significant ≠ []) : 0 < d.leadingNumber := by
  obtain ⟨b, rest, same⟩ := List.exists_cons_of_ne_nil other
  have filled : ∀ b ∈ d.significant.head?, (b == Byte.zero) = false := Byte.dropWhile_stop
  have leading : d.leading = b :: rest.take 17 := by rw [DecimalLiteral.leading, same]; rfl
  apply Nat.pos_of_ne_zero
  rw [leadingNumber, Ne, positional_eq_zero_iff h.isDigit_leading, leading]
  exact fun zeros => beq_eq_false_iff_ne.1 (filled b (by simp [same])) (zeros b (by simp))

/-! ### The bounds -/

omit h in
theorem scaleOf_eq (exponent : Int) : d.scaleOf exponent =
    (d.significant.drop 18).length + (exponent - d.fraction.length) := by
  have few : d.significant.length ≤ d.digits.length := (List.dropWhile_sublist _).length_le
  have all : d.digits.length = d.whole.length + d.fraction.length := List.length_append
  have leading : d.leading.length = min 18 d.significant.length := List.length_take
  rw [scaleOf, leading, List.length_drop]
  omega

/-- The digits that count and those left out, at the place of the last that counts. -/
theorem magnitudeAt_eq (exponent : Int) : d.magnitudeAt exponent =
    (d.leadingNumber + positional 10 (d.significant.drop 18) / 10 ^ (d.significant.drop 18).length) *
      10 ^ d.scaleOf exponent := by
  have parts := positional_append 10 d.leading (d.significant.drop 18)
  have whole : d.leading ++ d.significant.drop 18 = d.significant := List.take_append_drop _ _
  rw [whole, h.positional_significant] at parts
  rw [magnitudeAt, parts, scaleOf_eq, zpow_add₀ (by norm_num), zpow_natCast]
  push_cast
  rw [← leadingNumber]
  field_simp

/-- A place beyond the limit is that of a number beyond all floats, or near zero. -/
theorem far_of_scaleOf (other : d.significant ≠ []) {exponent : Int}
    (least : d.leadingNumber * 10 ^ d.scaleOf exponent ≤ d.magnitudeAt exponent)
    (beyond : d.magnitudeAt exponent < (d.leadingNumber + 1) * 10 ^ d.scaleOf exponent)
    (far : 511 < (d.scaleOf exponent).natAbs) :
    10 ^ 512 ≤ d.magnitudeAt exponent ∨ d.magnitudeAt exponent < 10 ^ (-494 : ℤ) := by
  rcases Int.le_total 0 (d.scaleOf exponent) with positive | negative
  · left
    have one : (1 : ℚ) ≤ d.leadingNumber := by exact_mod_cast h.leadingNumber_pos other
    calc (10 : ℚ) ^ 512 = 1 * 10 ^ (512 : ℤ) := by rw [one_mul]; rfl
      _ ≤ d.leadingNumber * 10 ^ d.scaleOf exponent := by
        gcongr
        · norm_num
        · omega
      _ ≤ d.magnitudeAt exponent := least
  · right
    have few : (d.leadingNumber + 1 : ℚ) ≤ 10 ^ (18 : ℤ) := by exact_mod_cast h.leadingNumber_lt
    calc d.magnitudeAt exponent < (d.leadingNumber + 1) * 10 ^ d.scaleOf exponent := beyond
      _ ≤ 10 ^ (18 : ℤ) * 10 ^ (-512 : ℤ) := by
        gcongr
        · norm_num
        · omega
      _ = 10 ^ (-494 : ℤ) := by rw [← zpow_add₀ (by norm_num)]; rfl

theorem leads (other : d.significant ≠ []) (exponent : Int) :
    d.Leads exponent d.leadingNumber (d.scaleOf exponent) := by
  have magnitude := h.magnitudeAt_eq exponent
  have place : (0 : ℚ) < 10 ^ d.scaleOf exponent := zpow_pos (by norm_num) _
  have rest_low : (0 : ℚ) ≤
      positional 10 (d.significant.drop 18) / 10 ^ (d.significant.drop 18).length := by positivity
  have rest_high :
      (positional 10 (d.significant.drop 18) / 10 ^ (d.significant.drop 18).length : ℚ) < 1 := by
    rw [div_lt_one (by positivity)]
    exact_mod_cast positional_lt (fun b hb => h.isDigit_significant b (List.mem_of_mem_drop hb)) le_rfl
  have least : d.leadingNumber * 10 ^ d.scaleOf exponent ≤ d.magnitudeAt exponent := by
    rw [magnitude]
    gcongr
    linarith
  have beyond : d.magnitudeAt exponent < (d.leadingNumber + 1) * 10 ^ d.scaleOf exponent := by
    rw [magnitude]
    gcongr
  constructor
  · rw [leadingNumber, leading, significantLimit, List.take_eq_take_min, Nat.min_comm]
  · exact h.highHalf_lt
  · exact h.lowHalf_lt
  · exact h.leadingNumber_eq
  · exact least
  · exact beyond
  · intro few
    rw [magnitude, List.drop_of_length_le few]
    simp [positional]
  · exact h.far_of_scaleOf other least beyond

/-- The halves are those of the number, so they give the float for it. -/
theorem leadingFloat_eq (net : Int) :
    PowerOfTen.scale d.leadingFloat net = floatAt d.leadingNumber net := by
  have low := h.lowHalf_lt
  have high : d.leadingNumber / 10 ^ 9 = d.highHalf := by
    rw [h.leadingNumber_eq]
    omega
  have rest : d.leadingNumber % 10 ^ 9 = d.lowHalf := by
    rw [h.leadingNumber_eq]
    omega
  rw [floatAt, high, rest, leadingFloat]

/-- A float, or the rejection of one, by the number and the place of its leading digits. -/
theorem float_eq (other : d.significant ≠ []) (exponent : Int) : d.float exponent =
    if 511 < (d.scaleOf exponent).natAbs ∨
        (floatAt d.leadingNumber (d.scaleOf exponent)).isFinite = false then
      .error d.outOfRange
    else .ok (d.signed (floatAt d.leadingNumber (d.scaleOf exponent))) := by
  have given : d.significant.isEmpty = false := by simpa using other
  simp only [DecimalLiteral.float, given, exponentLimit, h.leadingFloat_eq]
  by_cases far : 511 < (d.scaleOf exponent).natAbs
  · simp [far]
  · by_cases finite : (floatAt d.leadingNumber (d.scaleOf exponent)).isFinite
    · simp [far, finite, DecimalLiteral.signed]
    · simp [far, finite]

end WellFormed

end DecimalLiteral

/-- A decimal that is no integer is a zero of its sign, or the float for its leading number and their
place, and it is rejected where the place is too far or the float is not finite. -/
theorem parseNumber_float {d : DecimalLiteral} (formed : d.WellFormed)
    (fractional : d.int? d.countedPower = none) :
    ((∀ b ∈ d.digits, b = Byte.zero) → parseNumber d.text = .ok (.float (d.signed 0.0))) ∧
    ((∃ b ∈ d.digits, b ≠ Byte.zero) →
      d.Leads d.countedPower d.leadingNumber (d.scaleOf d.countedPower) ∧
      if 511 < (d.scaleOf d.countedPower).natAbs ∨
          (DecimalLiteral.floatAt d.leadingNumber (d.scaleOf d.countedPower)).isFinite = false then
        ∃ e, parseNumber d.text = .error e ∧ e.kind = .invalidNumber
      else parseNumber d.text =
        .ok (.float (d.signed
          (DecimalLiteral.floatAt d.leadingNumber (d.scaleOf d.countedPower))))) := by
  rw [formed.parseNumber_text, fractional]
  constructor
  · intro zeros
    have none_given : d.significant = [] := DecimalLiteral.significant_eq_nil_iff.2 zeros
    have float : d.float d.countedPower = .ok (d.signed 0.0) := by
      simp [DecimalLiteral.float, none_given, DecimalLiteral.signed]
    rw [float]
  · rintro ⟨b, inside, filled⟩
    have other : d.significant ≠ [] := fun none_given =>
      filled (DecimalLiteral.significant_eq_nil_iff.1 none_given b inside)
    refine ⟨formed.leads other d.countedPower, ?_⟩
    rw [formed.float_eq other]
    split
    · exact ⟨_, rfl, rfl⟩
    · rfl

/-- Nineteen significant digits, behind zeros on both sides of the point. -/
def excess : DecimalLiteral :=
  ⟨.minus, [0x30], true, [0x30, 0x31, 0x32, 0x33, 0x34, 0x35, 0x36, 0x37, 0x38, 0x39, 0x30, 0x31,
    0x32, 0x33, 0x34, 0x35, 0x36, 0x37, 0x38, 0x39], some ⟨Byte.lowerE, .none, [0x35]⟩⟩

theorem parseNumber_float_excess : excess.WellFormed ∧ excess.int? excess.countedPower = none ∧
    excess.Leads 5 123456789012345678 (-14) := by
  have formed : excess.WellFormed := by decide
  have number : excess.leadingNumber = 123456789012345678 := by decide
  have place : excess.scaleOf excess.countedPower = -14 := by decide
  have leads := ((parseNumber_float formed rfl).2 ⟨0x31, by decide, by decide⟩).1
  rw [number, place] at leads
  exact ⟨formed, rfl, leads⟩

end JsonTree
