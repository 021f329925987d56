import JsonTree.Proofs.Checked.Marks
import JsonTree.Proofs.Numbers

/-!
Numbers decoded with every unchecked step checked: the cuts at the marks, the bytes that failures show,
the values of digits and the sums that no word may exceed. No check ever fails, so that the results are
those of the decoder.
-/
namespace JsonTree.Checked

/-! ### Decoding where the marks say -/

namespace Number

open DecimalLiteral (significantLimit chunk exponentLimit greatestPower)

/-- The digits of a hex literal as one number, if it fits 64 bits without a sign. -/
def hexMagnitude (n : Nat) : List UInt8 → Except (Stop Fault) (Option Nat)
  | [] => .ok (some n)
  | b :: rest => do
    let next := n * 16 + (← hexDigit b)
    if next < Nat.pow 2 64 then hexMagnitude next rest else .ok none

def hex (lit : List UInt8) (m : Marks) : Except (Stop Fault) Value := do
  let first := m.body + 2
  let digits ← range lit first lit.length
  let overflow : Except (Stop Fault) Value := do
    let _ ← byteAt lit first
    refuse ⟨.invalidHex, first⟩
  match ← hexMagnitude 0 digits with
  | none => overflow
  | some magnitude =>
    let n : Int := if m.negative then -magnitude else magnitude
    if Integer.signed.contains n then .ok (.int (Int64.ofInt n)) else overflow

/-- The digits of an exponent, as far as they count. The sum stays in a signed word. -/
def power (n : Nat) : List UInt8 → Except (Stop Fault) Nat
  | [] => .ok n
  | b :: rest =>
    if n < Exponent.limit then do
      let n ← inWord 63 (n * 10 + (← digit b))
      power n rest
    else power n rest

def exponent (lit : List UInt8) (m : Marks) : Except (Stop Fault) Int :=
  match m.exponent with
  | none => .ok 0
  | some mark => do
    let (sign, digits) := Sign.split (← range lit (mark + 1) lit.length)
    let n ← power 0 digits
    .ok (sign.apply n)

def int? (lit : List UInt8) (m : Marks) (exponent : Int) : Except (Stop Fault) (Option Int) :=
  if m.point.isSome || exponent < 0 then .ok none
  else do
    match Integer.read Integer.signed (← range lit 0 (m.exponent.getD lit.length)) with
    | .error _ => .ok none
    | .ok n =>
      if exponent > greatestPower then .ok none
      else
        let scaled := n * Nat.pow 10 exponent.toNat
        .ok (if Integer.signed.contains scaled then some scaled else none)

/-- The digits before and after a boundary as two numbers. Both sums stay in a word. -/
def halves (boundary seen high low : Nat) : List UInt8 → Except (Stop Fault) (Nat × Nat)
  | [] => .ok (high, low)
  | b :: rest => do
    let n ← digit b
    if seen < boundary then
      let high ← inWord 64 (high * 10 + n)
      halves boundary (seen + 1) high low rest
    else
      let low ← inWord 64 (low * 10 + n)
      halves boundary (seen + 1) high low rest

def outOfRange {α : Type} (lit : List UInt8) (m : Marks) : Except (Stop Fault) α := do
  let place := m.exponent.getD 0
  let _ ← byteAt lit place
  refuse ⟨.invalidNumber, place⟩

def float (lit : List UInt8) (m : Marks) (exponent : Int) : Except (Stop Fault) Float := do
  let mantissa ← range lit m.body (m.exponent.getD lit.length)
  let digits := mantissa.filter (· != Byte.point)
  let significant := digits.dropWhile (· == Byte.zero)
  let signed := fun (x : Float) => if m.negative then -x else x
  if significant.isEmpty then .ok (signed 0.0)
  else
    let leading := significant.take significantLimit
    let (high, low) ← halves (leading.length - chunk) 0 0 0 leading
    let sum := 1.0e9 * high.toUInt64.toFloat + low.toUInt64.toFloat
    let scale : Int := m.wholeDigits - (digits.length - significant.length : Nat) -
      leading.length + exponent
    if scale.natAbs > exponentLimit then outOfRange lit m
    else
      let magnitude := PowerOfTen.scale sum scale
      if magnitude.isFinite then .ok (signed magnitude) else outOfRange lit m

def decimal (lit : List UInt8) (m : Marks) : Except (Stop Fault) Value := do
  let exponent ← exponent lit m
  match ← int? lit m exponent with
  | some n => .ok (.int (Int64.ofInt n))
  | none => .ok (.float (← float lit m exponent))

def decodeMarked (asText : Bool) (lit : List UInt8) : Except (Stop Fault) Value := do
  let m ← Marks.ofBytes lit
  if asText then .ok (.literal (Number.literalText lit))
  else if m.hex then hex lit m
  else decimal lit m

def decode (asText : Bool) (lit : List UInt8) : Except (Stop Fault) Value :=
  match lit with
  | [b] =>
    if Byte.isDigit b then do
      let n ← digit b
      .ok (if asText then .literal (Number.literalText lit) else .int (Int64.ofNat n))
    else decodeMarked asText lit
  | _ => decodeMarked asText lit

end Number

/-! ### Decoding a marked literal -/

namespace Number

open DecimalLiteral (significantLimit chunk exponentLimit greatestPower)

section

variable {h : HexLiteral}

theorem hexMagnitude_eq {digits : List UInt8} (all : ∀ b ∈ digits, Byte.isHexDigit b) (n : Nat) :
    hexMagnitude n digits = .ok (HexLiteral.accumulate n digits) := by
  induction digits generalizing n with
  | nil => rfl
  | cons b rest ih =>
    have later := fun n => ih (fun b hb => all b (by simp [hb])) n
    rw [hexMagnitude, hexDigit_of_isHexDigit (all b (by simp))]
    simp only [bind, Except.bind, later, HexLiteral.accumulate]
    split <;> rfl

theorem hex_eq (formed : h.WellFormed) :
    hex h.text (Marks.ofLiteral (.hex h)) = h.value.mapError .refused := by
  have digits : range (ε := Fault) h.text (h.sign.text.length + 2) h.text.length = .ok h.digits := by
    refine range_of_parts (h.sign.text ++ [Byte.zero, h.mark]) [] ?_ (by simp) ?_
    · simp [HexLiteral.text]
    · simp [HexLiteral.text]
      omega
  have first : h.sign.text.length + 2 < h.text.length := by
    have some_digit := List.length_pos_iff.2 formed.some_digit
    simp [HexLiteral.text]
    omega
  simp only [hex, Marks.ofLiteral, digits, byteAt_of_lt first, bind, Except.bind,
    hexMagnitude_eq formed.digits, HexLiteral.value, HexLiteral.int?]
  cases HexLiteral.accumulate 0 h.digits with
  | none => rfl
  | some n =>
    simp only [Sign.apply, decide_eq_true_eq]
    by_cases fits : Integer.signed.contains (if h.sign = .minus then -(n : Int) else n) <;>
      simp [fits, refuse, Except.mapError]

end

section

variable {d : DecimalLiteral}

/-- Below the limit there is room for one more digit. -/
theorem power_eq {digits : List UInt8} (all : ∀ b ∈ digits, Byte.isDigit b) (n : Nat) :
    power n digits = .ok (digits.foldl
      (fun n b => if n < Exponent.limit then n * 10 + Byte.digitValue b else n) n) := by
  induction digits generalizing n with
  | nil => rfl
  | cons b rest ih =>
    have later := fun n => ih (fun b hb => all b (by simp [hb])) n
    have digit := all b (by simp)
    have low := Byte.digitValue_le digit
    rw [power, List.foldl_cons]
    split
    · rename_i below
      have room : n * 10 + Byte.digitValue b < 2 ^ 63 := by
        have limit : Exponent.limit < 2 ^ 32 := by decide
        omega
      simp only [bind, Except.bind, digit_of_isDigit digit, inWord_of_lt room]
      exact later _
    · exact later n

theorem exponent_eq (formed : d.WellFormed) :
    exponent d.text (Marks.ofLiteral (.decimal d)) =
      .ok ((d.exponent.map Exponent.capped).getD 0) := by
  cases same : d.exponent with
  | none => simp [exponent, Marks.ofLiteral, same]
  | some e =>
    obtain ⟨_, _, digits⟩ := formed.exponent e same
    have after : range (ε := Fault) d.text (d.significandText.length + 1) d.text.length =
        .ok (e.sign.text ++ e.digits) := by
      refine range_of_parts (d.significandText ++ [e.mark]) [] ?_ (by simp) ?_
      · simp [DecimalLiteral.text, same, Exponent.text]
      · simp [DecimalLiteral.text, same, Exponent.text]
        omega
    have unsigned : ∀ b ∈ e.digits.head?, b ≠ Byte.minus ∧ b ≠ Byte.plus :=
      fun b hb => Byte.isDigit_ne (digits b (List.mem_of_mem_head? hb))
    simp only [exponent, Marks.ofLiteral, same, Option.map_some, after, bind, Except.bind,
      Sign.split_text unsigned, power_eq digits]
    rfl

/-- The text before the exponent, or all of it. -/
theorem mark_getD (d : DecimalLiteral) :
    (Marks.ofLiteral (.decimal d)).exponent.getD d.text.length = d.significandText.length := by
  cases same : d.exponent <;> simp [Marks.ofLiteral, same, DecimalLiteral.text]

theorem isSome_mark (d : DecimalLiteral) : (Marks.ofLiteral (.decimal d)).point.isSome = d.point := by
  cases same : d.point <;> simp [Marks.ofLiteral, same]

theorem int?_eq (formed : d.WellFormed) (exponent : Int) :
    int? d.text (Marks.ofLiteral (.decimal d)) exponent = .ok (d.int? exponent) := by
  have mantissa : range (ε := Fault) d.text 0 d.significandText.length = .ok d.significandText :=
    range_of_parts [] d.exponentText rfl rfl (by simp)
  rw [int?, DecimalLiteral.int?, isSome_mark, mark_getD, mantissa]
  by_cases pointed : d.point || exponent < 0
  · simp [pointed]
  · have whole : d.significandText = d.sign.text ++ d.whole := by
      have unpointed : d.point = false := by simp_all
      simp [DecimalLiteral.significandText, unpointed, formed.fraction_eq_nil unpointed]
    rw [if_neg pointed, whole]
    simp only [bind, Except.bind]
    by_cases great : exponent > greatestPower
    · have none_given : d.point || exponent < 0 || exponent > greatestPower := by simp [great]
      rw [if_pos none_given]
      cases Integer.read Integer.signed (d.sign.text ++ d.whole) <;> simp [great]
    · have given : ¬ (d.point || exponent < 0 || exponent > greatestPower) = true := by simp_all
      rw [if_neg given]
      cases Integer.read Integer.signed (d.sign.text ++ d.whole) <;> simp [great]

theorem halves_low {boundary seen : Nat} (past : boundary ≤ seen) (high : Nat)
    {digits : List UInt8} (all : ∀ b ∈ digits, Byte.isDigit b) {low : Nat}
    (room : Integer.extend low digits < 2 ^ 64) :
    halves boundary seen high low digits = .ok (high, Integer.extend low digits) := by
  induction digits generalizing seen low with
  | nil => rfl
  | cons b rest ih =>
    have digit := all b (by simp)
    have next : low * 10 + Byte.digitValue b < 2 ^ 64 :=
      Nat.lt_of_le_of_lt (Integer.le_extend _ rest) room
    simp only [halves, digit_of_isDigit digit, bind, Except.bind, if_neg (Nat.not_lt.2 past),
      inWord_of_lt next]
    exact ih (Nat.le_succ_of_le past) (fun b hb => all b (by simp [hb])) room

theorem halves_high {boundary seen : Nat} (low : Nat) {digits : List UInt8} (rest : List UInt8)
    (all : ∀ b ∈ digits, Byte.isDigit b) (reach : seen + digits.length = boundary) {high : Nat}
    (room : Integer.extend high digits < 2 ^ 64) :
    halves boundary seen high low (digits ++ rest) =
      halves boundary boundary (Integer.extend high digits) low rest := by
  induction digits generalizing seen high with
  | nil =>
    obtain rfl : seen = boundary := reach
    rfl
  | cons b more ih =>
    have digit := all b (by simp)
    have next : high * 10 + Byte.digitValue b < 2 ^ 64 :=
      Nat.lt_of_le_of_lt (Integer.le_extend _ more) room
    have before : seen < boundary := by
      rw [← reach, List.length_cons]
      omega
    simp only [List.cons_append, halves, digit_of_isDigit digit, bind, Except.bind, if_pos before,
      inWord_of_lt next]
    refine ih (fun b hb => all b (by simp [hb])) ?_ room
    rw [List.length_cons] at reach
    omega

/-- Nine digits are far from the bound of a word. -/
theorem halves_eq {digits : List UInt8} (all : ∀ b ∈ digits, Byte.isDigit b)
    (few : digits.length ≤ significantLimit) :
    halves (digits.length - chunk) 0 0 0 digits =
      .ok (decimalValue (digits.take (digits.length - chunk)),
        decimalValue (digits.drop (digits.length - chunk))) := by
  have nine : ∀ part : List UInt8, part.length ≤ chunk → (∀ b ∈ part, Byte.isDigit b) →
      Integer.extend 0 part < 2 ^ 64 := by
    intro part short inside
    have few := Integer.extend_lt inside 0
    have most : 10 ^ part.length ≤ 10 ^ chunk := Nat.pow_le_pow_right (by decide) short
    have bound : 10 ^ chunk < 2 ^ 64 := by decide
    omega
  have limit : significantLimit = chunk + chunk := rfl
  have high := nine (digits.take (digits.length - chunk)) (by rw [List.length_take]; omega)
    fun b hb => all b (List.mem_of_mem_take hb)
  have low := nine (digits.drop (digits.length - chunk)) (by rw [List.length_drop]; omega)
    fun b hb => all b (List.mem_of_mem_drop hb)
  have reach : 0 + (digits.take (digits.length - chunk)).length = digits.length - chunk := by
    rw [List.length_take]
    omega
  have halved := halves_high 0 (digits.drop (digits.length - chunk))
    (fun b hb => all b (List.mem_of_mem_take hb)) reach high
  rw [List.take_append_drop] at halved
  rw [halved, halves_low (Nat.le_refl _) _ (fun b hb => all b (List.mem_of_mem_drop hb)) low]
  rfl

theorem text_ne_nil (formed : d.WellFormed) : d.text ≠ [] := by
  obtain ⟨b, first, _⟩ := formed.head_body
  obtain ⟨more, same⟩ := List.head?_eq_some_iff.1 first
  simp [DecimalLiteral.text_eq, same]

theorem outOfRange_eq {α : Type} (formed : d.WellFormed) :
    outOfRange (α := α) d.text (Marks.ofLiteral (.decimal d)) = refuse d.outOfRange := by
  have inside : d.outOfRange.index < d.text.length := by
    cases same : d.exponent with
    | none =>
      simpa [DecimalLiteral.outOfRange, same, List.length_pos_iff] using text_ne_nil formed
    | some e => simp [DecimalLiteral.outOfRange, DecimalLiteral.text, same, Exponent.text]
  have place : (Marks.ofLiteral (.decimal d)).exponent.getD 0 = d.outOfRange.index := by
    cases same : d.exponent <;> simp [Marks.ofLiteral, DecimalLiteral.outOfRange, same]
  simp only [outOfRange, place, byteAt_of_lt inside, bind, Except.bind]
  rfl

theorem filter_digits {digits : List UInt8} (all : ∀ b ∈ digits, Byte.isDigit b) :
    digits.filter (· != Byte.point) = digits := by
  refine List.filter_eq_self.2 fun b hb => ?_
  have digit := all b hb
  simp only [bne_iff_ne]
  rintro rfl
  contradiction

theorem float_eq (formed : d.WellFormed) (exponent : Int) :
    float d.text (Marks.ofLiteral (.decimal d)) exponent =
      (d.float exponent).mapError .refused := by
  have mantissa : range (ε := Fault) d.text d.sign.text.length d.significandText.length =
      .ok (d.whole ++ (if d.point then [Byte.point] else []) ++ d.fraction) := by
    refine range_of_parts d.sign.text d.exponentText ?_ rfl ?_
    · simp [DecimalLiteral.text_eq, DecimalLiteral.body]
    · simp [DecimalLiteral.significandText]
  have digits : (d.whole ++ (if d.point then [Byte.point] else []) ++ d.fraction).filter
      (· != Byte.point) = d.digits := by
    rw [List.filter_append, List.filter_append, filter_digits formed.whole,
      filter_digits formed.fraction]
    cases d.point <;> simp [DecimalLiteral.digits]
  have all : ∀ b ∈ d.leading, Byte.isDigit b := by
    intro b hb
    have inside := List.mem_append.1 ((List.dropWhile_sublist _).mem (List.mem_of_mem_take hb))
    exact inside.elim (formed.whole b) (formed.fraction b)
  have halved := halves_eq all (List.length_take_le _ _)
  have body : (Marks.ofLiteral (.decimal d)).body = d.sign.text.length := rfl
  have whole : (Marks.ofLiteral (.decimal d)).wholeDigits = d.whole.length := rfl
  have negative : (Marks.ofLiteral (.decimal d)).negative = decide (d.sign = .minus) := rfl
  have significant : d.digits.dropWhile (· == Byte.zero) = d.significant := rfl
  have leading : d.significant.take significantLimit = d.leading := rfl
  have sum : 1.0e9 * (decimalValue (d.leading.take (d.leading.length - chunk))).toUInt64.toFloat +
      (decimalValue (d.leading.drop (d.leading.length - chunk))).toUInt64.toFloat =
        d.leadingFloat := rfl
  have scale : (d.whole.length - (d.digits.length - d.significant.length : Nat) - d.leading.length +
      exponent : Int) = d.scaleOf exponent := rfl
  simp only [float, DecimalLiteral.float, mark_getD, body, mantissa, bind, Except.bind, digits,
    significant, leading, halved, whole, negative, sum, scale, decide_eq_true_eq,
    outOfRange_eq formed]
  split
  · rfl
  · split
    · rfl
    · split <;> rfl

theorem decimal_eq (formed : d.WellFormed) :
    decimal d.text (Marks.ofLiteral (.decimal d)) = d.value.mapError .refused := by
  simp only [decimal, exponent_eq formed, int?_eq formed, float_eq formed, bind, Except.bind,
    DecimalLiteral.value, DecimalLiteral.valueAt]
  generalize (d.exponent.map Exponent.capped).getD 0 = exponent
  cases d.int? exponent with
  | some n => rfl
  | none => cases d.float exponent <;> rfl

end

theorem decodeMarked_eq (asText : Bool) (lit : List UInt8) :
    decodeMarked asText lit = (JsonTree.Number.decodeValidated asText lit).mapError .refused := by
  simp only [decodeMarked, JsonTree.Number.decodeValidated, Marks.ofBytes_eq, bind, Except.bind]
  cases read : Literal.read lit with
  | error f => rfl
  | ok l =>
    obtain ⟨formed, rfl⟩ := Literal.read_eq_ok_iff.1 read
    cases asText with
    | true => rfl
    | false =>
      cases l with
      | hex h => exact hex_eq formed
      | decimal d => exact decimal_eq formed

theorem decode_eq (asText : Bool) (lit : List UInt8) :
    decode asText lit = (JsonTree.Number.decode asText lit).mapError .refused := by
  match lit with
  | [] => exact decodeMarked_eq asText []
  | [b] =>
    by_cases digit : Byte.isDigit b
    · simp only [decode, JsonTree.Number.decode, digit, if_true, digit_of_isDigit digit]
      rfl
    · simp only [decode, JsonTree.Number.decode, digit]
      exact decodeMarked_eq asText [b]
  | b :: c :: rest => exact decodeMarked_eq asText (b :: c :: rest)

end Number

end JsonTree.Checked
