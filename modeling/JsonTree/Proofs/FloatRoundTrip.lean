import JsonTree.Proofs.ExactIntegers
import JsonTree.Proofs.FloatDecoding
import JsonTree.Proofs.FloatSearch
import JsonTree.Proofs.ShortestDecimals

/-!
Which decoded floats are restored by the text that is written for them. They are those that one of the
texts tried is decoded to, so not all. Those from literals of few digits that are neither far from the
point nor great are among them: the decoder rounds such literals only once, and so it does the shortest
text of the float.
-/
namespace JsonTree.FloatText

open Binary DecimalLiteral

/-! ### Decoded floats -/

/-- A text that is decoded to a float is a decimal. -/
theorem exists_decimal {t : List UInt8} {x : Float} (parsed : parseNumber t = .ok (.float x)) :
    ∃ d : DecimalLiteral, d.WellFormed ∧ d.text = t := by
  obtain ⟨l, formed, rfl, _⟩ := Number.decode_eq_ok_iff.1 (parseNumber_eq_ok_iff.1 parsed).decoded
  cases l with
  | decimal d => exact ⟨d, formed, rfl⟩
  | hex h =>
    rw [Literal.text, HexLiteral.parseNumber_hex formed] at parsed
    split at parsed <;> cases parsed

theorem isFinite_signed (d : DecimalLiteral) {x : Float} (finite : x.isFinite) :
    (d.signed x).isFinite := by
  rw [DecimalLiteral.signed]
  split
  · exact isFinite_neg finite
  · exact finite

theorem isFinite_of_parseNumber {t : List UInt8} {x : Float}
    (parsed : parseNumber t = .ok (.float x)) : x.isFinite := by
  obtain ⟨d, formed, rfl⟩ := exists_decimal parsed
  have float := formed.float_of_parseNumber parsed
  by_cases zeros : d.significant = []
  · rw [float_of_zeros zeros, Except.ok.injEq] at float
    rw [← float]
    exact isFinite_signed d (by decide +kernel)
  · obtain ⟨_, finite, rfl⟩ := (formed.float_eq_ok_iff zeros).1 float
    exact isFinite_signed d finite

/-- A literal with a point and up to eighteen digits is decoded by its digits and their place. -/
theorem Writes.parseNumber_iff {d : DecimalLiteral} {n : Nat} {place : Int} (h : Writes d n place)
    (some : n ≠ 0) (few : n < 10 ^ 18) {y : Float} : parseNumber d.text = .ok (.float y) ↔
      place.natAbs ≤ 511 ∧ (floatAt n place).isFinite ∧ d.signed (floatAt n place) = y := by
  obtain ⟨formed, point, rfl, rfl, counted⟩ := h
  have int : d.int? d.countedPower = none := by simp [DecimalLiteral.int?, point]
  have other : d.significant ≠ [] := by
    intro zeros
    rw [← formed.positional_significant, zeros] at some
    exact some rfl
  have float : parseNumber d.text = .ok (.float y) ↔ d.float d.countedPower = .ok y := by
    rw [formed.parseNumber_text, int]
    cases d.float d.countedPower <;> simp
  obtain ⟨number, scale⟩ := formed.leading_of_lt few d.countedPower
  rw [float, formed.float_eq_ok_iff other, number, scale]
  rcases counted with same | ⟨far, beyond⟩
  · rw [same]
  · exact iff_of_false (fun h => by omega) (fun h => by omega)

/-! ### The sign -/

section

variable {x : Float} {d : DecimalLiteral}

theorem signed_signOf (sign : d.sign = signOf x) (y : Float) :
    d.signed y = if isNegative x then -y else y := by
  rw [DecimalLiteral.signed, sign, signOf]
  cases isNegative x <;> rfl

/-- A float is its magnitude with its sign. -/
theorem signed_magnitude {b : Binary} (h : b.Normal) (finite : x.isFinite) (same : ofFloat x = b)
    (sign : d.sign = signOf x) : d.signed (magnitude b h) = x := by
  subst same
  have whole := float_ofFloat (isFinite_iff.1 finite) h.canonical.some_bit
  rw [Binary.sign] at whole
  rw [signed_signOf sign, magnitude, neg_float]
  split
  · rename_i negative
    rwa [if_pos negative] at whole
  · rename_i positive
    rwa [if_neg positive] at whole

theorem ofFloat_signed {b : Binary} (h : b.Normal) : ofFloat (d.signed (magnitude b h)) = b := by
  rw [DecimalLiteral.signed, magnitude, neg_float]
  split
  · exact ofFloat_float _ _
  · exact ofFloat_float _ _

end

/-! ### Candidates -/

/-- The decoder takes the number of seventeen digits to the float, at the place of the digits. -/
def Reaches (x : Float) (n : Nat) : Prop :=
  (Decimal.rounded x).exponent.natAbs ≤ 511 ∧
    (if isNegative x then -floatAt n (Decimal.rounded x).exponent
      else floatAt n (Decimal.rounded x).exponent) = x

theorem restores_candidate_iff {x : Float} (finite : x.isFinite) {n : Nat} (near : Near x n) :
    Restores (candidate x n) x ↔ Reaches x n := by
  have writes := writes_candidateLiteral x ((Decimal.rounded x).exponent + 16) n
  have some : n ≠ 0 := Nat.ne_of_gt (Nat.lt_of_lt_of_le (by decide) near.digits.1)
  have few : n < 10 ^ 18 := Nat.lt_trans near.digits.2 (by decide)
  rw [add_sub_cancel_right] at writes
  have read := writes.parseNumber_iff some few (y := x)
  rw [signed_signOf rfl] at read
  rw [restores_iff, readsBack_iff, candidate, ← text_candidateLiteral, read, Reaches]
  refine and_congr_right fun _ => and_iff_right_of_imp fun same => ?_
  have given := finite
  rw [← same] at given
  split at given
  · exact isFinite_of_neg given
  · exact given

/-- Which floats are restored by their text. -/
theorem restores_text_iff {x : Float} (finite : x.isFinite) : Restores (text x) x ↔
    Restores (shortest x) x ∨ ∃ n, Near x n ∧ Reaches x n := by
  have candidates : (∃ n, Near x n ∧ Restores (candidate x n) x) ↔ ∃ n, Near x n ∧ Reaches x n :=
    exists_congr fun n => and_congr_right (restores_candidate_iff finite)
  rw [← candidates]
  refine ⟨fun restored => ?_, (chosen_text finite).restores⟩
  generalize same : text x = t at restored
  have chosen := chosen_text finite
  rw [same] at chosen
  cases chosen with
  | shortest exact => exact .inl exact
  | exact _ near exact _ => exact .inr ⟨_, near, exact⟩
  | inexact _ missed near _ => exact absurd restored (missed _ near)
  | unread _ _ => exact .inl restored

theorem text_of_restores {x : Float} (finite : x.isFinite) (h : Restores (shortest x) x) :
    text x = shortest x := by
  rw [text, finite, if_neg (by decide), if_pos (restores_iff.1 h)]

/-! ### Few digits -/

/-- The shortest text as a literal. No digits are added to its decimal, or no more of them than make
it a whole number with one digit behind the point. -/
theorem exists_shortestLiteral {x : Float} (few : (Decimal.shortest x).digits < 10 ^ 18) :
    ∃ (d : DecimalLiteral) (places : Nat), d.sign = signOf x ∧
      d.text = Utf8.ofChars (shortest x) ∧
      (places : Int) ≤ max 1 ((Decimal.shortest x).exponent + 1) ∧
      Writes d ((Decimal.shortest x).digits * 10 ^ places)
        ((Decimal.shortest x).exponent - places) := by
  by_cases exponent : isScientific x
  · obtain ⟨places, short, writes⟩ := writes_scientificLiteral (signOf x) (Decimal.shortest x) few
    refine ⟨_, places, rfl, ?_, by omega, writes⟩
    rw [text_scientificLiteral, shortest, if_pos exponent, Utf8.ofChars_append, text_signOf]
  · obtain ⟨places, short, writes⟩ := writes_positionalLiteral (signOf x) (Decimal.shortest x)
    refine ⟨_, places, rfl, ?_, by omega, writes⟩
    rw [text_positionalLiteral, shortest, if_neg exponent, Utf8.ofChars_append, text_signOf]

/-- Both the decimal of few digits and the shortest one are rounded once, to the nearest float, and the
float is nearest to both. -/
theorem restores_shortest {x : Float} {b : Binary} {n : Nat} {place : Int} (finite : x.isFinite)
    (few : Decimal.Few n place) (near : Nearest (n * 10 ^ place) b) (same : ofFloat x = b) :
    Restores (shortest x) x := by
  obtain ⟨other, coarser⟩ := few.shortest near same
  have digits := few.digits_lt near other coarser
  have least := few.place
  have greatest := few.place_le near other
  obtain ⟨d, places, sign, text, short, writes⟩ := exists_shortestLiteral (x := x) (by omega)
  obtain ⟨fits, small⟩ := few.filled near other coarser short
  have some : (Decimal.shortest x).digits * 10 ^ places ≠ 0 :=
    Nat.mul_ne_zero (few.some_digit near other) (Nat.ne_of_gt (Nat.pow_pos (by decide)))
  have close : ((Decimal.shortest x).exponent - places).natAbs ≤ 22 := by omega
  obtain ⟨c, nearest, decoded⟩ := floatAt_nearest fits some small close
  -- The zeros that are filled in do not change the number, so the float is nearest to it again.
  have value : (((Decimal.shortest x).digits * 10 ^ places : Nat) : ℚ) *
      10 ^ ((Decimal.shortest x).exponent - places) =
        (Decimal.shortest x).digits * 10 ^ (Decimal.shortest x).exponent := by
    rw [Nat.cast_mul, Nat.cast_pow, Nat.cast_ofNat, mul_assoc, ← zpow_natCast,
      ← zpow_add₀ (by norm_num), add_sub_cancel]
  obtain rfl : c = b := (value ▸ nearest).unique other
  rw [restores_iff, readsBack_iff, ← text, writes.parseNumber_iff some small, decoded]
  refine ⟨by omega, ?_, signed_magnitude nearest.normal finite same sign⟩
  exact isFinite_iff.2 (finite_float _ _)

/-- A float decoded from few digits, or from none but zeros, is restored by its shortest text. -/
theorem restores_of_few {d : DecimalLiteral} (formed : d.WellFormed) {x : Float}
    (parsed : parseNumber d.text = .ok (.float x))
    (few : d.leadingNumber = 0 ∨ Decimal.Few d.leadingNumber (d.scaleOf d.countedPower)) :
    Restores (shortest x) x := by
  have finite := isFinite_of_parseNumber parsed
  have float := formed.float_of_parseNumber parsed
  rcases few with zeros | few
  · have none_given : d.significant = [] := by
      by_contra other
      exact Nat.ne_of_gt (formed.leadingNumber_pos other) zeros
    rw [float_of_zeros none_given, Except.ok.injEq] at float
    rw [← float, DecimalLiteral.signed, restores_iff]
    split <;> decide +kernel
  · have other : d.significant ≠ [] := by
      intro none_given
      apply few.some
      rw [leadingNumber, leading, none_given]
      rfl
    obtain ⟨_, _, rfl⟩ := (formed.float_eq_ok_iff other).1 float
    have least := few.place
    have greatest := few.place_lt
    have digits := few.digits
    have close : (d.scaleOf d.countedPower).natAbs ≤ 22 := by omega
    obtain ⟨b, near, decoded⟩ := floatAt_nearest (.of_lt (by omega)) few.some (by omega) close
    rw [decoded] at finite ⊢
    exact restores_shortest finite few near (ofFloat_signed near.normal)

/-! ### Decoded floats that are written -/

theorem toList_toJson_float (x : Float) : (Value.float x).toJson.toList = text x := by
  rw [Value.toList_toJson]
  rfl

/-- A float that was decoded is restored by the text written for it if the decoder takes one of the
texts tried to it. Always restored are zeros, and the floats from literals of less than sixteen digits
that do not reach below `10^-21` and stay below `10^15`. Their shortest texts are written. -/
theorem toJson_float_restores {t : List UInt8} {x : Float} (parsed : parseNumber t = .ok (.float x)) :
    (Restores (Value.float x).toJson.toList x ↔
      Restores (shortest x) x ∨ ∃ n, Near x n ∧ Reaches x n) ∧
    ∀ d : DecimalLiteral, d.WellFormed → d.text = t →
      d.leadingNumber = 0 ∨ Decimal.Few d.leadingNumber (d.scaleOf d.countedPower) →
        (Value.float x).toJson.toList = shortest x ∧ Restores (Value.float x).toJson.toList x := by
  have finite := isFinite_of_parseNumber parsed
  rw [toList_toJson_float]
  refine ⟨restores_text_iff finite, ?_⟩
  rintro d formed rfl few
  have restored := restores_of_few formed parsed few
  have same := text_of_restores finite restored
  exact ⟨same, same ▸ restored⟩

/-- Fifteen digits, of which the last stands at `10^-17`. -/
def minute : DecimalLiteral :=
  ⟨.minus, [0x30], true, [0x30, 0x30, 0x31, 0x32, 0x33, 0x34, 0x35, 0x36, 0x37, 0x38, 0x39, 0x38, 0x37,
    0x36, 0x35, 0x34, 0x33], none⟩

theorem toJson_float_restores_minute : parseNumber minute.text = .ok (.float (-0.00123456789876543)) ∧
    Restores (Value.float (-0.00123456789876543)).toJson.toList (-0.00123456789876543) := by
  have read : readsBack (-0.00123456789876543) "-0.00123456789876543".toList := by decide +kernel
  have parsed : parseNumber minute.text = .ok (.float (-0.00123456789876543)) := readsBack_iff.1 read
  have number : minute.leadingNumber = 123456789876543 := by decide
  have place : minute.scaleOf minute.countedPower = -17 := by decide
  have few : Decimal.Few minute.leadingNumber (minute.scaleOf minute.countedPower) := by
    rw [number, place]
    exact ⟨by decide, by decide, by decide, by norm_num⟩
  exact ⟨parsed, ((toJson_float_restores parsed).2 minute (by decide) rfl (.inr few)).2⟩

/-- The float that `8.00000000000002e15` is decoded to. The floats that numbers of seventeen digits are
decoded to lie around it, with none of them on it. -/
def lost : Float := .ofBits 0x433C6BF526340014

theorem toJson_float_lost : parseNumber (Utf8.ofString "8.00000000000002e15") = .ok (.float lost) ∧
    ¬ Restores (Value.float lost).toJson.toList lost := by
  have read : readsBack lost "8.00000000000002e15".toList := by decide +kernel
  have finite : lost.isFinite := by decide +kernel
  have missed : ∀ n ∈ candidates (Decimal.rounded lost).digits,
      (floatAt n (Decimal.rounded lost).exponent).toBits ≠ lost.toBits := by
    decide +kernel
  refine ⟨readsBack_iff.1 read, ?_⟩
  rw [toList_toJson_float, restores_text_iff finite, restores_iff]
  rintro (exact | ⟨n, near, _, reached⟩)
  · exact absurd exact (by decide +kernel)
  · rw [if_neg (by decide +kernel)] at reached
    exact missed n (near_iff.1 near) (congrArg Float.toBits reached)

end JsonTree.FloatText
