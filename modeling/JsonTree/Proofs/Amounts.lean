import JsonTree.Proofs.Numbers
import Mathlib.Algebra.Field.Rat
import Mathlib.Data.Nat.Digits.Defs

/-!
The number that a literal denotes: a rational, whatever the length of its digits and the size of its
exponent. Digits count by their place. What the decoder accumulates from a run of digits is the number
they denote, and the exponent it accumulates is the one written or lies as far beyond all powers that
matter.
-/
namespace JsonTree

/-- The digits of the bases up to sixteen, in order. -/
def Byte.symbols : List Char :=
  ['0', '1', '2', '3', '4', '5', '6', '7', '8', '9', 'a', 'b', 'c', 'd', 'e', 'f']

/-- The value of a digit of either case. -/
def Byte.rank (b : UInt8) : Nat := Byte.symbols.idxOf (Char.ofUInt8 b).toLower

theorem Byte.digitValue_eq_rank {b : UInt8} (h : isDigit b) : digitValue b = rank b := by
  revert b
  decide +kernel

theorem Byte.hexValue_eq_rank {b : UInt8} (h : isHexDigit b) : hexValue b = rank b := by
  revert b
  decide +kernel

theorem Byte.rank_lt {b : UInt8} (h : isDigit b) : rank b < 10 := by
  revert b
  decide +kernel

theorem Byte.rank_eq_zero_iff {b : UInt8} (h : isDigit b) : rank b = 0 ↔ b = zero := by
  revert b
  decide +kernel

/-- The number that digits denote, the last digit counting its own value. -/
def positional (base : Nat) (digits : List UInt8) : Nat :=
  Nat.ofDigits base (digits.reverse.map Byte.rank)

section

variable (base : Nat)

theorem positional_append (digits more : List UInt8) :
    positional base (digits ++ more) =
      positional base digits * base ^ more.length + positional base more := by
  rw [positional, List.reverse_append, List.map_append, Nat.ofDigits_append, List.length_map,
    List.length_reverse, Nat.mul_comm, Nat.add_comm]
  rfl

theorem positional_cons (b : UInt8) (rest : List UInt8) :
    positional base (b :: rest) = Byte.rank b * base ^ rest.length + positional base rest := by
  have first : positional base [b] = Byte.rank b := Nat.ofDigits_singleton
  rw [← first]
  exact positional_append base [b] rest

/-- Digits taken one after another, each moving what is before it by one place. -/
theorem positional_foldl {value : UInt8 → Nat} {digits : List UInt8}
    (same : ∀ b ∈ digits, value b = Byte.rank b) (n : Nat) :
    digits.foldl (fun n b => n * base + value b) n =
      n * base ^ digits.length + positional base digits := by
  induction digits generalizing n with
  | nil => simp [positional]
  | cons b rest ih =>
    have later := ih (fun b hb => same b (by simp [hb])) (n * base + value b)
    rw [List.foldl_cons, later, positional_cons, same b (by simp), List.length_cons, Nat.pow_succ',
      Nat.add_mul, Nat.mul_assoc, Nat.add_assoc]

end

section

variable {digits : List UInt8} (all : ∀ b ∈ digits, Byte.isDigit b)
include all

theorem decimalValue_eq : decimalValue digits = positional 10 digits := by
  have whole := positional_foldl 10 (fun b hb => Byte.digitValue_eq_rank (all b hb)) 0
  rw [Nat.zero_mul, Nat.zero_add] at whole
  exact whole

theorem positional_lt {places : Nat} (few : digits.length ≤ places) :
    positional 10 digits < 10 ^ places := by
  have small : ∀ n ∈ digits.reverse.map Byte.rank, n < 10 := by
    simpa using fun b hb => Byte.rank_lt (all b hb)
  have bound := Nat.ofDigits_lt_base_pow_length (by decide) small
  rw [List.length_map, List.length_reverse] at bound
  exact Nat.lt_of_lt_of_le bound (Nat.pow_le_pow_right (by decide) few)

theorem positional_eq_zero_iff : positional 10 digits = 0 ↔ ∀ b ∈ digits, b = Byte.zero := by
  induction digits with
  | nil => simp [positional]
  | cons b rest ih =>
    have later := ih fun b hb => all b (by simp [hb])
    have first := Byte.rank_eq_zero_iff (all b (by simp))
    rw [positional_cons, List.forall_mem_cons, ← later, ← first]
    simp

end

theorem Integer.positional_digits (n : Nat) : positional 10 (Integer.digits n) = n := by
  rw [← decimalValue_eq (isDigit_digits n), decimalValue_digits]

/-! ### Exponents -/

namespace Exponent

/-- The exponent as it is written, of any size. -/
def power (e : Exponent) : Int := e.sign.apply (positional 10 e.digits)

/-- The way an exponent is written. -/
def ofInt (n : Int) : Exponent :=
  ⟨Byte.lowerE, (Integer.literal n).sign, (Integer.literal n).whole⟩

theorem ofInt_wellFormed (n : Int) : (ofInt n).WellFormed where
  mark := .inl rfl
  some_digit := Integer.digits_ne_nil n.natAbs
  digits := Integer.isDigit_digits n.natAbs

theorem text_ofInt (n : Int) : (ofInt n).text = Utf8.ofChars ('e' :: Integer.text n) := by
  have digits : (Integer.literal n).text = (ofInt n).sign.text ++ (ofInt n).digits := by
    simp [DecimalLiteral.text, DecimalLiteral.significandText, Integer.literal, ofInt]
  rw [Utf8.ofChars_cons, ← Integer.text_literal, digits]
  rfl

theorem power_ofInt (n : Int) : (ofInt n).power = n := by
  have value := Integer.value_literal n
  rwa [decimalValue_eq (Integer.literal_wellFormed n).whole] at value

/-- The digits that count, behind those that have given `n`. -/
def cappedFrom (n : Nat) (digits : List UInt8) : Nat :=
  digits.foldl (fun n b => if n < limit then n * 10 + Byte.digitValue b else n) n

theorem cappedFrom_cons (n : Nat) (b : UInt8) (rest : List UInt8) : cappedFrom n (b :: rest) =
    cappedFrom (if n < limit then n * 10 + Byte.digitValue b else n) rest := rfl

theorem cappedFrom_of_le {n : Nat} (reached : limit ≤ n) (digits : List UInt8) :
    cappedFrom n digits = n := by
  induction digits with
  | nil => rfl
  | cons b rest ih => rwa [cappedFrom_cons, if_neg (Nat.not_lt.2 reached)]

/-- Digits are left out only behind a number that has reached the limit, and each of them would have
moved it by one place. -/
theorem cappedFrom_or (n : Nat) (digits : List UInt8) :
    cappedFrom n digits = Integer.extend n digits ∨
      limit ≤ cappedFrom n digits ∧ 10 * cappedFrom n digits ≤ Integer.extend n digits := by
  induction digits generalizing n with
  | nil => exact .inl rfl
  | cons b rest ih =>
    by_cases below : n < limit
    · have next := ih (n * 10 + Byte.digitValue b)
      rw [cappedFrom_cons, if_pos below]
      exact next
    · have reached := Nat.le_of_not_lt below
      have later : n * 10 + Byte.digitValue b ≤ Integer.extend n (b :: rest) :=
        Integer.le_extend _ rest
      rw [cappedFrom_of_le reached]
      exact .inr ⟨reached, by omega⟩

theorem cappedMagnitude_or {digits : List UInt8} (all : ∀ b ∈ digits, Byte.isDigit b) :
    cappedMagnitude digits = positional 10 digits ∨
      limit ≤ cappedMagnitude digits ∧ 10 * cappedMagnitude digits ≤ positional 10 digits := by
  have value : Integer.extend 0 digits = positional 10 digits := decimalValue_eq all
  rw [← value]
  exact cappedFrom_or 0 digits

/-- The exponent that is accumulated is the one written, or both lie beyond the limit on one side. -/
theorem WellFormed.capped_or {e : Exponent} (h : e.WellFormed) :
    e.capped = e.power ∨ (limit : Int) ≤ e.capped ∧ (limit : Int) ≤ e.power ∨
      e.capped ≤ -limit ∧ e.power ≤ -limit := by
  have magnitudes := cappedMagnitude_or h.digits
  simp only [capped, power, Sign.apply]
  split <;> omega

end Exponent

/-! ### Literals -/

namespace DecimalLiteral

/-- The power of ten that a literal asks for. -/
def power (d : DecimalLiteral) : Int := (d.exponent.map Exponent.power).getD 0

/-- The power of ten as far as its digits are counted. -/
def countedPower (d : DecimalLiteral) : Int := (d.exponent.map Exponent.capped).getD 0

/-- The digits before the point, with the sign. -/
def mantissa (d : DecimalLiteral) : Int := d.sign.apply (positional 10 d.whole)

/-- The number that the digits of a literal denote under an exponent, without the sign. -/
def magnitudeAt (d : DecimalLiteral) (exponent : Int) : ℚ :=
  positional 10 d.digits * 10 ^ (exponent - d.fraction.length)

def amount (d : DecimalLiteral) : ℚ :=
  if d.sign = .minus then -d.magnitudeAt d.power else d.magnitudeAt d.power

theorem WellFormed.countedPower_or {d : DecimalLiteral} (h : d.WellFormed) :
    d.countedPower = d.power ∨
      (Exponent.limit : Int) ≤ d.countedPower ∧ (Exponent.limit : Int) ≤ d.power ∨
        d.countedPower ≤ -Exponent.limit ∧ d.power ≤ -Exponent.limit := by
  unfold countedPower power
  cases same : d.exponent with
  | none => exact .inl rfl
  | some e => exact (h.exponent e same).capped_or

theorem WellFormed.isDigit_digits {d : DecimalLiteral} (h : d.WellFormed) :
    ∀ b ∈ d.digits, Byte.isDigit b := by
  intro b hb
  rcases List.mem_append.1 hb with whole | fraction
  · exact h.whole b whole
  · exact h.fraction b fraction

theorem significant_eq_nil_iff {d : DecimalLiteral} :
    d.significant = [] ↔ ∀ b ∈ d.digits, b = Byte.zero := by
  simp [significant]

/-- Without a point the amount is the mantissa times the power of ten. -/
theorem WellFormed.amount_eq {d : DecimalLiteral} (h : d.WellFormed) (point : d.point = false) :
    d.amount = d.mantissa * 10 ^ d.power := by
  have fraction := h.fraction_eq_nil point
  have magnitude : d.magnitudeAt d.power = positional 10 d.whole * 10 ^ d.power := by
    simp [magnitudeAt, digits, fraction]
  rw [amount, magnitude, mantissa, Sign.apply]
  split <;> simp

end DecimalLiteral

namespace HexLiteral

/-- The integer that a literal denotes, of any size. -/
def integer (h : HexLiteral) : Int := h.sign.apply (positional 16 h.digits)

end HexLiteral

namespace Literal

def amount : Literal → ℚ
  | hex h => h.integer
  | decimal d => d.amount

end Literal

/-! ### Decoding a literal -/

/-- A literal is decoded to its value, and a value out of range is reported where the literal is. -/
theorem parseNumber_text {l : Literal} (formed : l.WellFormed) :
    parseNumber l.text = match l.value with
      | .error f => .error (f.locate ⟨0, l.text⟩)
      | .ok v => .ok v := by
  have read : Literal.read l.text = .ok l := Literal.read_eq_ok_iff.2 ⟨formed, rfl⟩
  rw [parseNumber_eq fun b hb => (formed.isInner b hb).2, Number.decode_eq, Number.decodeValidated,
    read]
  rfl

/-- A decimal is the integer that fits, or else a float. -/
theorem DecimalLiteral.WellFormed.parseNumber_text {d : DecimalLiteral} (h : d.WellFormed) :
    parseNumber d.text = match d.int? d.countedPower with
      | some z => .ok (.int (Int64.ofInt z))
      | none => match d.float d.countedPower with
        | .error f => .error (f.locate ⟨0, d.text⟩)
        | .ok x => .ok (.float x) := by
  have value : d.value = match d.int? d.countedPower with
    | some z => .ok (.int (Int64.ofInt z))
    | none => (d.float d.countedPower).map .float := rfl
  have decoded := JsonTree.parseNumber_text (l := .decimal d) h
  simp only [Literal.text, Literal.value, value] at decoded
  rw [decoded]
  cases d.int? d.countedPower with
  | some z => rfl
  | none => cases d.float d.countedPower <;> rfl

end JsonTree
