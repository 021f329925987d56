import JsonTree.Proofs.Faults
import JsonTree.Proofs.FloatDecoding

/-!
Exponents of any length. The digits of an exponent count until the number they form has reached a
limit, and a number that was cut off there lies far from the one that is written. Both are beyond the
range of floats unless the significand has millions of digits itself. Then one of the two can be back
in range, and the literal is not decoded to what it denotes.
-/
namespace JsonTree

theorem Sign.natAbs_apply (sign : Sign) (n : Nat) : (sign.apply n).natAbs = n := by
  rw [apply]
  split
  · rw [Int.natAbs_neg, Int.natAbs_natCast]
  · exact Int.natAbs_natCast n

namespace Exponent

/-- The last digit that counts is added to less than the limit. -/
theorem cappedFrom_lt {digits : List UInt8} (all : ∀ b ∈ digits, Byte.isDigit b) {n : Nat}
    (start : n < 10 * limit) : cappedFrom n digits < 10 * limit := by
  induction digits generalizing n with
  | nil => exact start
  | cons b rest ih =>
    obtain ⟨first, others⟩ := List.forall_mem_cons.1 all
    rw [cappedFrom_cons]
    split
    · have digit := Byte.rank_lt first
      rw [← Byte.digitValue_eq_rank first] at digit
      exact ih others (by omega)
    · exact ih others start

/-- The exponent that is counted is the one written, below ten times the limit, or it has reached
the limit and the one written is at least ten times as great. -/
theorem WellFormed.capped_cases {e : Exponent} (h : e.WellFormed) :
    e.capped = e.power ∧ e.power.natAbs < 10 * limit ∨
      limit ≤ e.capped.natAbs ∧ 10 * e.capped.natAbs ≤ e.power.natAbs := by
  have small : cappedMagnitude e.digits < 10 * limit := cappedFrom_lt h.digits (by decide)
  rw [capped, power, Sign.natAbs_apply, Sign.natAbs_apply]
  rcases cappedMagnitude_or h.digits with same | apart
  · rw [← same]
    exact .inl ⟨rfl, small⟩
  · exact .inr apart

end Exponent

namespace DecimalLiteral

/-- The power of ten with all digits accumulated. -/
def exactPower (d : DecimalLiteral) : Int := (d.exponent.map Exponent.exact).getD 0

/-- What a literal by itself is read to if its exponent counts as the one given. -/
def parsedAt (d : DecimalLiteral) (exponent : Int) : Except ParseError Value :=
  (d.valueAt exponent).mapError (·.locate ⟨0, d.text⟩)

variable {d : DecimalLiteral} {exponent : Int}

theorem int?_of_far (far : 18 < exponent.natAbs) : d.int? exponent = none := by
  have beyond : exponent < 0 ∨ exponent > greatestPower := by
    rw [greatestPower]
    omega
  rw [int?, if_pos (by simpa [or_assoc] using .inr beyond)]

theorem parsedAt_of_far (far : 18 < exponent.natAbs) : d.parsedAt exponent =
    ((d.float exponent).map .float).mapError (·.locate ⟨0, d.text⟩) := by
  rw [parsedAt, valueAt, int?_of_far far]

/-- A significand moves the exponent by no more places than it has digits. -/
theorem natAbs_exponent_le (d : DecimalLiteral) (exponent : Int) :
    exponent.natAbs ≤ (d.scaleOf exponent).natAbs + d.digits.length := by
  have few : d.significant.length ≤ d.digits.length := (List.dropWhile_sublist _).length_le
  have all : d.digits.length = d.whole.length + d.fraction.length := List.length_append
  rw [WellFormed.scaleOf_eq, List.length_drop]
  omega

namespace WellFormed

variable (h : d.WellFormed)
include h

theorem parseNumber_counted : parseNumber d.text = d.parsedAt d.countedPower := by
  have value : d.value = d.valueAt d.countedPower := rfl
  have decoded := JsonTree.parseNumber_text (l := .decimal d) h
  rw [Literal.text, Literal.value, value] at decoded
  rw [decoded, parsedAt]
  cases d.valueAt d.countedPower <;> rfl

theorem exactPower_eq : d.exactPower = d.power := by
  unfold exactPower power
  cases same : d.exponent with
  | none => rfl
  | some e =>
    have value : e.exact = e.power := by
      rw [Exponent.exact, Exponent.power, decimalValue_eq (h.exponent e same).digits]
    exact value

theorem countedPower_cases : d.countedPower = d.power ∧ d.power.natAbs < 10 * Exponent.limit ∨
    Exponent.limit ≤ d.countedPower.natAbs ∧ 10 * d.countedPower.natAbs ≤ d.power.natAbs := by
  unfold countedPower power
  cases same : d.exponent with
  | none => exact .inl ⟨rfl, by decide⟩
  | some e => exact (h.exponent e same).capped_cases

/-- No significand is in range under both of two exponents that lie far from each other. -/
theorem not_both (other : d.significant ≠ []) {e f : Int} (apart : 1022 < (e - f).natAbs)
    {x y : Float} (first : d.float e = .ok x) (second : d.float f = .ok y) : False := by
  have near := ((h.float_eq_ok_iff other).1 first).1
  have near' := ((h.float_eq_ok_iff other).1 second).1
  rw [scaleOf_eq] at near near'
  omega

/-- Where an exponent has been cut off, the literal is read alike under both if it has no digit but
zeros or is out of range under both. -/
theorem parsedAt_eq_iff_of_cut (reached : Exponent.limit ≤ d.countedPower.natAbs)
    (apart : 10 * d.countedPower.natAbs ≤ d.power.natAbs) :
    d.parsedAt d.countedPower = d.parsedAt d.power ↔ (∀ b ∈ d.digits, b = Byte.zero) ∨
      (∀ x, d.float d.countedPower ≠ .ok x) ∧ ∀ x, d.float d.power ≠ .ok x := by
  have limit : 1022 < Exponent.limit := by decide
  rw [parsedAt_of_far (by omega), parsedAt_of_far (by omega)]
  by_cases zeros : d.significant = []
  · rw [float_of_zeros zeros, float_of_zeros zeros]
    exact iff_of_true rfl (.inl (significant_eq_nil_iff.1 zeros))
  · have filled : ¬ ∀ b ∈ d.digits, b = Byte.zero := by rwa [← significant_eq_nil_iff]
    cases counted : d.float d.countedPower with
    | error f =>
      cases written : d.float d.power with
      | error g =>
        rw [float_fault counted, float_fault written]
        simp
      | ok y => simp [filled, Except.map, Except.mapError]
    | ok x =>
      cases written : d.float d.power with
      | error g => simp [filled, Except.map, Except.mapError]
      | ok y => exact (h.not_both zeros (by omega) counted written).elim

end WellFormed

end DecimalLiteral

/-- A decimal is read as if all digits of its exponent counted just when the exponent is below ten
times the limit, or all other digits are zeros, or the literal is out of range either way. That is so
for every literal with fewer digits than the limit, less the places that a float can bear. -/
theorem parseNumber_capped {d : DecimalLiteral} (formed : d.WellFormed) :
    (parseNumber d.text = d.parsedAt d.exactPower ↔
      d.exactPower.natAbs < 10 * Exponent.limit ∨ (∀ b ∈ d.digits, b = Byte.zero) ∨
        (∀ x, d.float d.countedPower ≠ .ok x) ∧ ∀ x, d.float d.exactPower ≠ .ok x) ∧
    (d.digits.length + 511 < Exponent.limit → parseNumber d.text = d.parsedAt d.exactPower) := by
  rw [formed.parseNumber_counted, formed.exactPower_eq]
  rcases formed.countedPower_cases with ⟨same, small⟩ | ⟨reached, apart⟩
  · rw [same]
    exact ⟨iff_of_true rfl (.inl small), fun _ => rfl⟩
  · have cut : ¬ d.power.natAbs < 10 * Exponent.limit := by omega
    have alike := formed.parsedAt_eq_iff_of_cut reached apart
    refine ⟨by rw [alike, or_iff_right cut], fun short => alike.2 ?_⟩
    by_cases zeros : d.significant = []
    · exact .inl (DecimalLiteral.significant_eq_nil_iff.1 zeros)
    · have far : ∀ exponent : Int, Exponent.limit ≤ exponent.natAbs →
          ∀ x, d.float exponent ≠ .ok x := by
        intro exponent great x taken
        have near := ((formed.float_eq_ok_iff zeros).1 taken).1
        have moved := d.natAbs_exponent_le exponent
        omega
      exact .inr ⟨far _ reached, far _ (by omega)⟩

/-- One and a half under an exponent of fourteen digits. -/
def beyondAll : DecimalLiteral :=
  ⟨.none, [0x31], true, [0x35], some ⟨Byte.lowerE, .none, List.replicate 14 0x39⟩⟩

theorem parseNumber_capped_beyondAll : beyondAll.countedPower ≠ beyondAll.exactPower ∧
    parseNumber beyondAll.text = beyondAll.parsedAt beyondAll.exactPower := by
  have formed : beyondAll.WellFormed := by decide
  exact ⟨by decide, (parseNumber_capped formed).2 (by decide)⟩

/-- A one behind the point and `n` zeros, under an exponent. -/
def displacedOne (n : Nat) (e : Exponent) : DecimalLiteral :=
  ⟨.none, [Byte.zero], true, List.replicate n Byte.zero ++ [0x31], some e⟩

section

variable {n : Nat} {e : Exponent}

theorem displacedOne_wellFormed (h : e.WellFormed) : (displacedOne n e).WellFormed where
  some_digit := .inl (List.cons_ne_nil _ _)
  whole := List.forall_mem_singleton.2 rfl
  unpadded := fun _ => rfl
  pointed := fun _ => rfl
  fraction := by
    intro b hb
    rcases List.mem_append.1 hb with zero | one
    · rw [List.eq_of_mem_replicate zero]
      rfl
    · rw [List.mem_singleton.1 one]
      rfl
  exponent := by
    rintro _ ⟨⟩
    exact h

theorem displacedOne_significant : (displacedOne n e).significant = [0x31] := by
  have digits : (displacedOne n e).digits = List.replicate (n + 1) Byte.zero ++ [0x31] := rfl
  rw [DecimalLiteral.significant, digits, List.dropWhile_append_of_pos]
  · rfl
  · intro b hb
    rw [List.eq_of_mem_replicate hb]
    rfl

theorem displacedOne_scaleOf (power : Int) :
    (displacedOne n e).scaleOf power = power - (n + 1 : Nat) := by
  have fraction : (displacedOne n e).fraction.length = n + 1 := by
    rw [displacedOne, List.length_append, List.length_replicate]
    rfl
  rw [DecimalLiteral.WellFormed.scaleOf_eq, displacedOne_significant, fraction]
  simp

variable (h : e.WellFormed)
include h

theorem displacedOne_restored (far : 18 < n + 1) :
    (displacedOne n e).parsedAt (n + 1 : Nat) = .ok (.float 1.0) := by
  have other : (displacedOne n e).significant ≠ [] := by simp [displacedOne_significant]
  have number : (displacedOne n e).leadingNumber = 1 := by
    rw [DecimalLiteral.leadingNumber, DecimalLiteral.leading, displacedOne_significant]
    decide
  have one : DecimalLiteral.floatAt 1 0 = 1.0 := by decide +kernel
  have finite : (1.0 : Float).isFinite := by decide +kernel
  have float : (displacedOne n e).float (n + 1 : Nat) = .ok 1.0 := by
    rw [(displacedOne_wellFormed h).float_eq_ok_iff other, displacedOne_scaleOf, Int.sub_self,
      number, one]
    exact ⟨by decide, finite, rfl⟩
  rw [DecimalLiteral.parsedAt_of_far (by rwa [Int.natAbs_natCast]), float]
  rfl

theorem displacedOne_lost {power : Int} (far : 511 < (power - (n + 1 : Nat)).natAbs)
    (great : 18 < power.natAbs) : (displacedOne n e).parsedAt power =
      .error ⟨.invalidNumber, e.mark, n + 3⟩ := by
  have other : (displacedOne n e).significant ≠ [] := by simp [displacedOne_significant]
  have float : (displacedOne n e).float power = .error (displacedOne n e).outOfRange := by
    rw [(displacedOne_wellFormed h).float_eq other, displacedOne_scaleOf, if_pos (.inl far)]
  have place : (displacedOne n e).significandText.length = n + 3 := by
    simp [DecimalLiteral.significandText, displacedOne, Sign.text]
  have byte : (displacedOne n e).text.getD (n + 3) 0 = e.mark := by
    rw [← place, DecimalLiteral.text, List.getD_append_right _ _ _ _ le_rfl, Nat.sub_self]
    rfl
  have fault : (displacedOne n e).outOfRange = ⟨.invalidNumber, n + 3⟩ := by
    rw [← place]
    rfl
  rw [DecimalLiteral.parsedAt_of_far great, float, fault]
  simp only [Except.map, Except.mapError, Fault.locate, byte, Nat.zero_add]

end

/-- Ten times the limit. -/
def cutExponent : Exponent :=
  ⟨Byte.lowerE, .none, [0x32, 0x31, 0x34, 0x37, 0x34, 0x38, 0x33, 0x36, 0x30]⟩

/-- As many zeros as bring the limit itself back into range. -/
def displaced : DecimalLiteral := displacedOne 21474835 cutExponent

theorem displaced_misread : displaced.WellFormed ∧ parseNumber displaced.text = .ok (.float 1.0) ∧
    displaced.parsedAt displaced.exactPower = .error ⟨.invalidNumber, Byte.lowerE, 21474838⟩ := by
  have exponent : cutExponent.WellFormed := by decide
  have counted : cutExponent.capped = (21474835 + 1 : Nat) := by decide +kernel
  have written : cutExponent.exact = 214748360 := by decide +kernel
  have formed : displaced.WellFormed := displacedOne_wellFormed exponent
  refine ⟨formed, ?_, ?_⟩
  · rw [formed.parseNumber_counted]
    change displaced.parsedAt cutExponent.capped = _
    rw [counted]
    exact displacedOne_restored exponent (by decide)
  · change displaced.parsedAt cutExponent.exact = _
    rw [written]
    exact displacedOne_lost exponent (by decide) (by decide)

end JsonTree
