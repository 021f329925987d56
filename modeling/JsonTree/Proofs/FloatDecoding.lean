import JsonTree.Proofs.LeadingDigits
import JsonTree.Proofs.FloatArithmetic

/-!
Decimals that are decoded to the nearest float. The halves of a number that fits a float are put
together exactly, small powers of ten are exact, so only the last step rounds.
-/
namespace JsonTree.DecimalLiteral

open Binary

theorem toFloat_eq {n : Nat} (small : n < 2 ^ 64) : n.toUInt64.toFloat = ofNat n := by
  have kept : n.toUInt64.toNat = n := Nat.mod_eq_of_lt small
  change Float.ofModel (.pack (Float.Model.UnpackedFloat.ofNat _ n.toUInt64.toNat)) = _
  rw [kept]
  rfl

/-- The powers of ten that a float holds exactly. -/
theorem power_eq {k : Nat} (small : k ≤ 22) : PowerOfTen.float k = ofNat (10 ^ k) := by
  have each : ∀ k : Fin 23, PowerOfTen.float k = ofNat (10 ^ k.val) := by decide +kernel
  exact each ⟨k, Nat.lt_succ_of_le small⟩

theorem fits_power {k : Nat} (small : k ≤ 22) : Fits (10 ^ k) := by
  refine ⟨5 ^ k, k, ?_, ?_⟩
  · exact Nat.lt_of_le_of_lt (Nat.pow_le_pow_right (by decide) small) (by decide)
  · rw [← Nat.mul_pow]

/-- The high half is moved up exactly, whatever it is. -/
theorem fits_high {high : Nat} (small : high < 10 ^ 9) : Fits (10 ^ 9 * high) := by
  refine ⟨5 ^ 9 * high, 9, ?_, ?_⟩
  · calc 5 ^ 9 * high < 5 ^ 9 * 10 ^ 9 := Nat.mul_lt_mul_of_pos_left small (by decide)
      _ < 2 ^ 53 := by decide
  · rw [Nat.mul_right_comm, ← Nat.mul_pow]

variable {n : Nat}

theorem exactly_halves (fits : Fits n) (small : n < 10 ^ 18) :
    Exactly (1.0e9 * (n / 10 ^ 9).toUInt64.toFloat + (n % 10 ^ 9).toUInt64.toFloat) n := by
  have billion : (1.0e9 : Float) = ofNat (10 ^ 9) := by decide +kernel
  have high : n / 10 ^ 9 < 10 ^ 9 := Nat.div_lt_of_lt_mul (by rwa [← Nat.pow_add])
  have low : n % 10 ^ 9 < 10 ^ 9 := Nat.mod_lt n (by decide)
  have whole : 10 ^ 9 * (n / 10 ^ 9) + n % 10 ^ 9 = n := Nat.div_add_mod n (10 ^ 9)
  have first : Exactly (ofNat (n / 10 ^ 9)) (n / 10 ^ 9) := exactly_ofNat (.of_lt (by omega)) (by omega)
  have second : Exactly (ofNat (n % 10 ^ 9)) (n % 10 ^ 9) :=
    exactly_ofNat (.of_lt (by omega)) (by omega)
  have unit : Exactly (ofNat (10 ^ 9)) (10 ^ 9) := exactly_ofNat (.of_lt (by decide)) (by decide)
  have sum := (unit.mul first (fits_high high) (by omega)).add second (by rwa [whole]) (by omega)
  rw [toFloat_eq (by omega), toFloat_eq (by omega), billion]
  rwa [whole] at sum

/-- Close to the point a number is scaled in one step. -/
theorem scale_eq {x : Float} {net : Int} (near : net.natAbs ≤ 22) : PowerOfTen.scale x net =
    if net = 0 then x
    else if net < 0 then x / ofNat (10 ^ net.natAbs) else x * ofNat (10 ^ net.natAbs) := by
  have none_full : net.natAbs / PowerOfTen.largest = 0 := Nat.div_eq_of_lt (by
    rw [PowerOfTen.largest]
    omega)
  have rest : net.natAbs % PowerOfTen.largest = net.natAbs := Nat.mod_eq_of_lt (by
    rw [PowerOfTen.largest]
    omega)
  simp only [PowerOfTen.scale, none_full, rest, Nat.repeat, Int.natAbs_eq_zero, PowerOfTen.step,
    power_eq near]

/-- The float for a number that fits, close to the point, is the nearest one. -/
theorem floatAt_nearest (fits : Fits n) (some : n ≠ 0) (small : n < 10 ^ 18) {net : Int}
    (near : net.natAbs ≤ 22) :
    ∃ b, ∃ h : Nearest (n * 10 ^ net) b, floatAt n net = magnitude b h.normal := by
  have power : (10 : Nat) ^ net.natAbs ≤ 10 ^ 22 := Nat.pow_le_pow_right (by decide) near
  have place : 0 < 10 ^ net.natAbs := Nat.pow_pos (by decide)
  obtain ⟨b, hb, number, whole⟩ := (exactly_halves fits small).exists_magnitude some
  obtain ⟨c, hc, scale, unit⟩ :=
    (exactly_ofNat (fits_power near) (by omega)).exists_magnitude (Nat.ne_of_gt place)
  rw [floatAt, whole, scale_eq near, unit]
  rcases lt_trichotomy net 0 with negative | rfl | above
  · have same : (n : ℚ) * 10 ^ net = b.value / c.value := by
      have power : net = -(net.natAbs : Int) := by omega
      rw [number, scale, Nat.cast_pow, Nat.cast_ofNat, ← zpow_natCast, div_eq_mul_inv, ← zpow_neg,
        ← power]
    have moderate : Moderate (b.value / c.value) := by
      rw [number, scale]
      exact moderate_div some (Nat.lt_trans small (by decide)) (Nat.ne_of_gt place)
        (Nat.lt_of_le_of_lt power (by decide))
    rw [if_neg (by omega), if_pos negative, same]
    exact div_magnitude hb hc moderate
  · have same : (n : ℚ) * 10 ^ (0 : Int) = b.value := by rw [number, zpow_zero, mul_one]
    rw [if_pos rfl, same]
    exact ⟨b, nearest_value hb, rfl⟩
  · have same : (n : ℚ) * 10 ^ net = b.value * c.value := by
      have power : net = (net.natAbs : Int) := by omega
      rw [number, scale, Nat.cast_pow, Nat.cast_ofNat, ← zpow_natCast, ← power]
    have moderate : Moderate (b.value * c.value) := by
      have bound := Nat.mul_le_mul (Nat.le_of_lt small) power
      rw [number, scale]
      exact_mod_cast moderate_natCast (Nat.mul_ne_zero some (Nat.ne_of_gt place))
        (Nat.lt_of_le_of_lt bound (by decide))
    rw [if_neg (by omega), if_neg (by omega), same]
    exact mul_magnitude hb hc moderate

/-! ### Literals -/

theorem float_of_zeros {d : DecimalLiteral} (zeros : d.significant = []) (exponent : Int) :
    d.float exponent = .ok (d.signed 0.0) := by
  simp [DecimalLiteral.float, zeros, DecimalLiteral.signed]

section

variable {d : DecimalLiteral} (h : d.WellFormed)
include h

theorem WellFormed.length_significant_le (few : positional 10 d.digits < 10 ^ 18) :
    d.significant.length ≤ 18 := by
  cases same : d.significant with
  | nil => exact Nat.zero_le _
  | cons b rest =>
    have filled : ∀ b ∈ d.significant.head?, (b == Byte.zero) = false := Byte.dropWhile_stop
    have other : Byte.rank b ≠ 0 := by
      rw [Ne, Byte.rank_eq_zero_iff (h.isDigit_significant b (by simp [same]))]
      exact beq_eq_false_iff_ne.1 (filled b (by simp [same]))
    have least : 10 ^ rest.length < 10 ^ 18 := by
      rw [← h.positional_significant, same, positional_cons] at few
      exact Nat.lt_of_le_of_lt (Nat.le_trans (Nat.le_mul_of_pos_left _ (Nat.pos_of_ne_zero other))
        (Nat.le_add_right _ _)) few
    exact (Nat.pow_lt_pow_iff_right (by decide)).1 least

/-- All of up to eighteen digits count. -/
theorem WellFormed.leading_of_lt (few : positional 10 d.digits < 10 ^ 18) (exponent : Int) :
    d.leadingNumber = positional 10 d.digits ∧ d.scaleOf exponent = exponent - d.fraction.length := by
  have short := h.length_significant_le few
  constructor
  · rw [leadingNumber, leading, significantLimit, List.take_of_length_le short,
      h.positional_significant]
  · rw [scaleOf_eq, List.drop_of_length_le short, List.length_nil]
    omega

/-- What a literal is decoded to as a float, if it is. -/
theorem WellFormed.float_of_parseNumber {x : Float} (parsed : parseNumber d.text = .ok (.float x)) :
    d.float d.countedPower = .ok x := by
  rw [h.parseNumber_text] at parsed
  split at parsed
  · cases parsed
  · split at parsed
    · cases parsed
    · rename_i float
      cases parsed
      exact float

theorem WellFormed.float_eq_ok_iff (other : d.significant ≠ []) {exponent : Int} {x : Float} :
    d.float exponent = .ok x ↔ (d.scaleOf exponent).natAbs ≤ 511 ∧
      (floatAt d.leadingNumber (d.scaleOf exponent)).isFinite ∧
        d.signed (floatAt d.leadingNumber (d.scaleOf exponent)) = x := by
  rw [h.float_eq other]
  split
  · rename_i refused
    constructor
    · nofun
    · rintro ⟨near, finite, _⟩
      rw [finite] at refused
      rcases refused with far | infinite
      · omega
      · cases infinite
  · rename_i taken
    push Not at taken
    rw [Except.ok.injEq]
    simp [taken]

end

end JsonTree.DecimalLiteral
