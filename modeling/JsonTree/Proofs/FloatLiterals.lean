import JsonTree.Number.FloatText
import JsonTree.Proofs.Amounts

/-!
The texts of floats as literals. Each way of writing a float puts the digits of a decimal around a
point, with zeros to fill them up, and the literal denotes the decimal again.
-/
namespace JsonTree.FloatText

/-- A literal with a point in which the digits make up a number and the last of them has a place. The
decoder sees that place, or one as far out of reach. -/
structure Writes (d : DecimalLiteral) (n : Nat) (place : Int) : Prop where
  formed : d.WellFormed
  point : d.point = true
  digits : JsonTree.positional 10 d.digits = n
  place : d.power - d.fraction.length = place
  counted : d.countedPower = d.power ∨
    511 < (d.countedPower - d.fraction.length).natAbs ∧ 511 < (d.power - d.fraction.length).natAbs

/-- The sign that a float is written with. -/
def signOf (x : Float) : Sign := if isNegative x then .minus else .none

theorem text_signOf (x : Float) : (signOf x).text = Utf8.ofChars (signText x) := by
  rw [signOf, signText]
  split <;> rfl

theorem Writes.amount {d : DecimalLiteral} {n : Nat} {place : Int} (h : Writes d n place) {x : Float}
    (sign : d.sign = signOf x) : d.amount = (if isNegative x then -1 else 1) * (n * 10 ^ place) := by
  rw [DecimalLiteral.amount, DecimalLiteral.magnitudeAt, h.digits, h.place, sign, signOf]
  cases isNegative x <;> simp

/-- Behind few digits the powers that are not counted in full are out of reach. -/
theorem counted_of_short {d : DecimalLiteral} (formed : d.WellFormed) (short : d.fraction.length ≤ 18) :
    d.countedPower = d.power ∨
      511 < (d.countedPower - d.fraction.length).natAbs ∧
        511 < (d.power - d.fraction.length).natAbs := by
  have limit : (1000 : Int) ≤ Exponent.limit := by decide
  have counted := formed.countedPower_or
  omega

/-! ### Digits -/

theorem length_toDigits (n : Nat) : (Nat.toDigits 10 n).length = (Integer.digits n).length := by
  induction n using Nat.strongRecOn with
  | ind n ih =>
    by_cases small : n < 10
    · rw [Integer.digits_of_lt small, Nat.toDigits_of_lt_base small]
      rfl
    · have shorter := ih (n / 10) (by omega)
      rw [Integer.digits_of_le (Nat.le_of_not_lt small),
        Nat.toDigits_of_base_le (by decide) (Nat.le_of_not_lt small), List.length_append,
        List.length_append, shorter]
      rfl

/-- The first digit of a number and the others. -/
theorem exists_digits (n : Nat) : ∃ c rest b, Nat.toDigits 10 n = c :: rest ∧
    Utf8.ofChars [c] = [b] ∧ Integer.digits n = b :: Utf8.ofChars rest := by
  obtain ⟨c, rest, same⟩ := List.exists_cons_of_ne_nil (Nat.toDigits_ne_nil (b := 10) (n := n))
  have digit : c.isDigit := Nat.isDigit_of_mem_toDigits (by decide) (by decide)
    (same ▸ List.mem_cons_self (l := rest))
  have ascii : c.toNat < 0x80 := by
    have last : '9'.toNat < 0x80 := by decide
    exact Nat.lt_of_le_of_lt (Char.isDigit_iff_toNat.1 digit).2 last
  refine ⟨c, rest, UInt8.ofNat c.toNat, same, ?_, ?_⟩
  · rw [Utf8.ofChars_cons, Utf8.encodeChar_ascii ascii]
    rfl
  · rw [Integer.digits, same, Utf8.ofChars_cons, Utf8.encodeChar_ascii ascii]
    rfl

theorem ofChars_padded (width n : Nat) : Utf8.ofChars (padded width n) =
    List.replicate (width - (Integer.digits n).length) Byte.zero ++ Integer.digits n := by
  have zeros : ∀ places, Utf8.ofChars (List.replicate places '0') = List.replicate places Byte.zero := by
    intro places
    induction places with
    | zero => rfl
    | succ places ih =>
      rw [List.replicate_succ, Utf8.ofChars_cons, ih]
      rfl
  rw [padded, Utf8.ofChars_append, zeros, length_toDigits]
  rfl

theorem isDigit_padded (width n : Nat) : ∀ b ∈ Utf8.ofChars (padded width n), Byte.isDigit b := by
  rw [ofChars_padded, List.forall_mem_append]
  refine ⟨fun b hb => ?_, Integer.isDigit_digits n⟩
  rw [List.eq_of_mem_replicate hb]
  rfl

theorem length_padded {width n : Nat} (some_place : 0 < width) (few : n < 10 ^ width) :
    (Utf8.ofChars (padded width n)).length = width := by
  have short := Integer.length_digits_le some_place few
  rw [ofChars_padded, List.length_append, List.length_replicate]
  omega

/-- Zeros in front do not change the number. -/
theorem positional_padded (width n : Nat) :
    JsonTree.positional 10 (Utf8.ofChars (padded width n)) = n := by
  have zeros : JsonTree.positional 10
      (List.replicate (width - (Integer.digits n).length) Byte.zero) = 0 := by
    rw [positional_eq_zero_iff fun b hb => by rw [List.eq_of_mem_replicate hb]; rfl]
    exact fun b hb => List.eq_of_mem_replicate hb
  rw [ofChars_padded, positional_append, zeros, Nat.zero_mul, Nat.zero_add,
    Integer.positional_digits]

/-! ### Seventeen digits -/

section

variable (x : Float) (exponent : Int) (n : Nat)

/-- The parts of the text of a number of seventeen digits. -/
def candidateLiteral : DecimalLiteral :=
  ⟨signOf x, Integer.digits (n / 10 ^ 16), true, Utf8.ofChars (padded 16 (n % 10 ^ 16)),
    some (.ofInt exponent)⟩

theorem text_candidateLiteral :
    (candidateLiteral x exponent n).text = Utf8.ofChars (candidateText x exponent n) := by
  rw [candidateText, Utf8.ofChars_append, Utf8.ofChars_append, Utf8.ofChars_append,
    Utf8.ofChars_cons, ← Exponent.text_ofInt, ← text_signOf]
  simp [candidateLiteral, DecimalLiteral.text, DecimalLiteral.significandText, Integer.digits]
  rfl

theorem writes_candidateLiteral : Writes (candidateLiteral x exponent n) n (exponent - 16) := by
  have places : (candidateLiteral x exponent n).fraction.length = 16 :=
    length_padded (by decide) (Nat.mod_lt n (by decide))
  have power : (candidateLiteral x exponent n).power = exponent := Exponent.power_ofInt exponent
  have parts := positional_append 10 (candidateLiteral x exponent n).whole
    (candidateLiteral x exponent n).fraction
  have formed : (candidateLiteral x exponent n).WellFormed := by
    refine ⟨.inl (Integer.digits_ne_nil _), Integer.isDigit_digits _, Integer.unpadded_digits,
      fun _ => rfl, isDigit_padded _ _, ?_⟩
    rintro _ ⟨⟩
    exact Exponent.ofInt_wellFormed _
  refine ⟨formed, rfl, ?_, ?_, counted_of_short formed (by omega)⟩
  · rw [places] at parts
    rw [DecimalLiteral.digits, parts, candidateLiteral, Integer.positional_digits,
      positional_padded, Nat.div_add_mod']
  · rw [places, power]
    rfl

end

/-! ### Shortest decimals -/

theorem ofChars_afterPoint (t : List Char) : Utf8.ofChars (afterPoint t) =
    if t = [] then [Byte.zero] else Utf8.ofChars t := by
  cases t with
  | nil => rfl
  | cons c rest => rfl

theorem padded_ne_nil (width n : Nat) : padded width n ≠ [] :=
  List.append_ne_nil_of_right_ne_nil _ Nat.toDigits_ne_nil

section

variable (s : Sign) (d : Decimal)

/-- The parts of the text without an exponent. -/
def positionalLiteral : DecimalLiteral :=
  ⟨s, Integer.digits (d.digits * 10 ^ d.exponent.toNat / 10 ^ (-d.exponent).toNat), true,
    if (-d.exponent).toNat = 0 then [Byte.zero]
    else Utf8.ofChars (padded (-d.exponent).toNat (d.digits % 10 ^ (-d.exponent).toNat)), none⟩

theorem text_positionalLiteral :
    (positionalLiteral s d).text = s.text ++ Utf8.ofChars (positional d) := by
  have fraction : (positionalLiteral s d).fraction = Utf8.ofChars (afterPoint
      (if (-d.exponent).toNat = 0 then []
      else padded (-d.exponent).toNat (d.digits % 10 ^ (-d.exponent).toNat))) := by
    rw [positionalLiteral, ofChars_afterPoint]
    split
    · rfl
    · rw [if_neg (padded_ne_nil _ _)]
  rw [positional, Utf8.ofChars_append, Utf8.ofChars_cons]
  simp only [DecimalLiteral.text, DecimalLiteral.significandText, fraction]
  simp [positionalLiteral, Integer.digits]
  rfl

/-- Without digits behind the point a zero stands there. -/
theorem writes_positionalLiteral : ∃ places : Nat, (places : Int) ≤ max 0 (d.exponent + 1) ∧
    Writes (positionalLiteral s d) (d.digits * 10 ^ places) (d.exponent - places) := by
  by_cases whole : (-d.exponent).toNat = 0
  · have fraction : (positionalLiteral s d).fraction = [Byte.zero] := if_pos whole
    have digits : (positionalLiteral s d).digits =
        Integer.digits (d.digits * 10 ^ d.exponent.toNat) ++ [Byte.zero] := by
      rw [DecimalLiteral.digits, fraction, positionalLiteral, whole, pow_zero, Nat.div_one]
    have zero : JsonTree.positional 10 [Byte.zero] = 0 := by decide
    refine ⟨d.exponent.toNat + 1, by omega, ?_, rfl, ?_, ?_, .inl rfl⟩
    · refine ⟨.inl (Integer.digits_ne_nil _), Integer.isDigit_digits _, Integer.unpadded_digits,
        fun _ => rfl, ?_, by rintro _ ⟨⟩⟩
      rw [fraction]
      exact List.forall_mem_singleton.2 rfl
    · rw [digits, positional_append, Integer.positional_digits, zero, pow_succ, ← Nat.mul_assoc]
      rfl
    · have power : (positionalLiteral s d).power = 0 := rfl
      rw [fraction, power, List.length_singleton]
      omega
  · have fraction : (positionalLiteral s d).fraction =
        Utf8.ofChars (padded (-d.exponent).toNat (d.digits % 10 ^ (-d.exponent).toNat)) := if_neg whole
    have length : (positionalLiteral s d).fraction.length = (-d.exponent).toNat := by
      rw [fraction]
      exact length_padded (Nat.pos_of_ne_zero whole) (Nat.mod_lt _ (Nat.pow_pos (by decide)))
    have none_after : d.exponent.toNat = 0 := by omega
    refine ⟨0, Int.le_max_left _ _, ?_, rfl, ?_, ?_, .inl rfl⟩
    · refine ⟨.inl (Integer.digits_ne_nil _), Integer.isDigit_digits _, Integer.unpadded_digits,
        fun _ => rfl, ?_, by rintro _ ⟨⟩⟩
      rw [fraction]
      exact isDigit_padded _ _
    · rw [DecimalLiteral.digits, positional_append, length, fraction, positional_padded,
        positionalLiteral, Integer.positional_digits, none_after, pow_zero, Nat.mul_one,
        Nat.div_add_mod']
    · have power : (positionalLiteral s d).power = 0 := rfl
      rw [length, power]
      omega

/-- The parts of the text with one digit before the point. -/
def scientificLiteral : DecimalLiteral :=
  ⟨s, (Integer.digits d.digits).take 1, true,
    if (Integer.digits d.digits).length = 1 then [Byte.zero] else (Integer.digits d.digits).drop 1,
    some (.ofInt (d.exponent + ((Integer.digits d.digits).length - 1 : Nat)))⟩

theorem text_scientificLiteral :
    (scientificLiteral s d).text = s.text ++ Utf8.ofChars (scientific d) := by
  have length := length_toDigits d.digits
  obtain ⟨c, rest, b, chars, first, bytes⟩ := exists_digits d.digits
  have one : (b :: Utf8.ofChars rest).length = 1 ↔ rest = [] := by
    rw [← bytes, ← length, chars, List.length_cons, Nat.add_eq_right, List.length_eq_zero_iff]
  have fraction : (scientificLiteral s d).fraction = Utf8.ofChars (afterPoint rest) := by
    rw [ofChars_afterPoint, scientificLiteral, bytes]
    simp only [one, List.drop_one, List.tail_cons]
  have whole : (scientificLiteral s d).whole = Utf8.ofChars [c] := by
    rw [scientificLiteral, bytes, first]
    rfl
  have exponent : (scientificLiteral s d).exponent =
      some (.ofInt (d.exponent + ((c :: rest).length - 1 : Nat))) := by
    rw [← chars, length]
    rfl
  have parts : (scientificLiteral s d).text = s.text ++ Utf8.ofChars [c] ++ [Byte.point] ++
      Utf8.ofChars (afterPoint rest) ++
        (Exponent.ofInt (d.exponent + ((c :: rest).length - 1 : Nat))).text := by
    rw [DecimalLiteral.text, DecimalLiteral.significandText, fraction, whole, exponent]
    rfl
  have sides : scientific d = [c] ++ '.' :: afterPoint rest ++
      'e' :: Integer.text (d.exponent + ((c :: rest).length - 1 : Nat)) := by
    rw [scientific, chars]
    rfl
  rw [parts, Exponent.text_ofInt, sides, Utf8.ofChars_append, Utf8.ofChars_append,
    Utf8.ofChars_cons '.', Utf8.ofChars_cons 'e']
  simp only [List.append_assoc]
  rfl

theorem writes_scientificLiteral (few : d.digits < 10 ^ 18) : ∃ places : Nat, places ≤ 1 ∧
    Writes (scientificLiteral s d) (d.digits * 10 ^ places) (d.exponent - places) := by
  have some_digit : 0 < (Integer.digits d.digits).length :=
    List.length_pos_iff.2 (Integer.digits_ne_nil _)
  have power : (scientificLiteral s d).power =
      d.exponent + ((Integer.digits d.digits).length - 1 : Nat) := Exponent.power_ofInt _
  have parts : (Integer.digits d.digits).take 1 ++ (Integer.digits d.digits).drop 1 =
      Integer.digits d.digits := List.take_append_drop 1 _
  have all := Integer.isDigit_digits d.digits
  have zero : JsonTree.positional 10 [Byte.zero] = 0 := by decide
  have formed : (scientificLiteral s d).WellFormed := by
    refine ⟨.inl ?_, fun b hb => all b (List.mem_of_mem_take hb), fun _ => ?_, fun _ => rfl, ?_, ?_⟩
    · exact List.ne_nil_of_length_pos (by rw [scientificLiteral, List.length_take]; omega)
    · rw [scientificLiteral, List.length_take]
      omega
    · rw [scientificLiteral]
      split
      · exact List.forall_mem_singleton.2 rfl
      · exact fun b hb => all b (List.mem_of_mem_drop hb)
    · rintro _ ⟨⟩
      exact Exponent.ofInt_wellFormed _
  by_cases one : (Integer.digits d.digits).length = 1
  · have fraction : (scientificLiteral s d).fraction = [Byte.zero] := if_pos one
    have whole : (scientificLiteral s d).whole = Integer.digits d.digits :=
      List.take_of_length_le (Nat.le_of_eq one)
    have short : (scientificLiteral s d).fraction.length ≤ 18 := by
      rw [fraction, List.length_singleton]
      decide
    refine ⟨1, Nat.le_refl 1, formed, rfl, ?_, ?_, counted_of_short formed short⟩
    · rw [DecimalLiteral.digits, positional_append, whole, fraction, Integer.positional_digits, zero]
      rfl
    · rw [fraction, power, one, List.length_singleton]
      omega
  · have fraction : (scientificLiteral s d).fraction = (Integer.digits d.digits).drop 1 := if_neg one
    have short : (scientificLiteral s d).fraction.length ≤ 18 := by
      have length := Integer.length_digits_le (by decide) few
      rw [fraction, List.length_drop]
      omega
    refine ⟨0, Nat.zero_le 1, formed, rfl, ?_, ?_, counted_of_short formed short⟩
    · rw [DecimalLiteral.digits, fraction, scientificLiteral, parts, Integer.positional_digits,
        pow_zero, Nat.mul_one]
    · rw [fraction, power, List.length_drop]
      omega

end

end JsonTree.FloatText
