import JsonTree.Proofs.Rounding

/-!
Arithmetic of floats. Products, quotients and sums of positive floats are the nearest floats to the
exact results. So they are exact where the result is a whole number that fits a float.
-/
namespace JsonTree.Binary

open Float.Model Float.Model.UnpackedFloat

/-- Far from all floats without a leading bit, and from infinity. -/
def Moderate (q : ℚ) : Prop := 2 ^ (-1000 : ℤ) ≤ q ∧ q < 2 ^ (1000 : ℤ)

/-- The positive float of a magnitude. -/
def magnitude (b : Binary) (h : b.Normal) : Float := float .positive b h.canonical

section

variable {m : Nat} {e : Int} {acc : Accuracy} {p : ℚ}

/-- The place of the leading bit of a number that is neither great nor small, by its whole part. -/
theorem Moderate.places (h : Moderate (p * 2 ^ e)) (some_bit : m ≠ 0) (above : m ≤ p)
    (under : p < m + 1) : -1001 < m.log2 + e ∧ m.log2 + e < 1000 := by
  have place : (0 : ℚ) < 2 ^ e := zpow_pos (by norm_num) e
  have least : (2 : ℚ) ^ (m.log2 + e) ≤ p * 2 ^ e := by
    rw [zpow_add₀ (by norm_num), zpow_natCast]
    exact mul_le_mul_of_nonneg_right (le_trans (by exact_mod_cast Nat.log2_self_le some_bit) above)
      place.le
  have beyond : p * 2 ^ e < (2 : ℚ) ^ (((m.log2 + 1 : Nat) : ℤ) + e) := by
    rw [zpow_add₀ (by norm_num), zpow_natCast]
    refine mul_lt_mul_of_pos_right (lt_of_lt_of_le under ?_) place
    exact_mod_cast Nat.lt_log2_self
  have low := (zpow_lt_zpow_iff_right₀ (by norm_num)).1 (lt_of_le_of_lt h.1 beyond)
  have high := (zpow_lt_zpow_iff_right₀ (by norm_num)).1 (lt_of_le_of_lt least h.2)
  omega

theorem round_moderate (stands : Stands (.ofMantissaAndAccuracy m acc) p) (wide : 2 ^ 52 ≤ m)
    (moderate : Moderate (p * 2 ^ e)) : ∃ b, ∃ h : Nearest (p * 2 ^ e) b,
      Float.ofModel (.pack (roundWithAccuracy Format.binary64 .positive m e acc)) =
        magnitude b h.normal := by
  have some_bit : m ≠ 0 := Nat.ne_of_gt (Nat.lt_of_lt_of_le (Nat.two_pow_pos 52) wide)
  have places : m.log2 = 52 + (m.log2 - 52) := (Nat.add_sub_cancel' ((Nat.le_log2 some_bit).2 wide)).symm
  obtain ⟨above, under⟩ := stands.bounds
  rw [mantissa_ofMantissaAndAccuracy] at above under
  obtain ⟨low, high⟩ := moderate.places some_bit above under
  have small : -1074 ≤ e + (m.log2 - 52 : Nat) := by omega
  have great : e + (m.log2 - 52 : Nat) < 971 := by omega
  obtain ⟨b, near, some, rounded⟩ :=
    roundWithAccuracy_nearest stands some_bit places small great .positive
  refine ⟨b, near, ?_⟩
  rw [rounded]
  rfl

theorem stands_exact (m : Nat) : Stands (.ofMantissaAndAccuracy m .exact) m := rfl

/-- A number that is moved up to have its leading bit. -/
theorem leads_of_log2 {m : Nat} (some_bit : m ≠ 0) : 2 ^ 52 ≤ m * 2 ^ (52 - m.log2) :=
  calc 2 ^ 52 ≤ 2 ^ (m.log2 + (52 - m.log2)) := Nat.pow_le_pow_right (by decide) (by omega)
    _ = 2 ^ m.log2 * 2 ^ (52 - m.log2) := Nat.pow_add 2 _ _
    _ ≤ m * 2 ^ (52 - m.log2) := Nat.mul_le_mul_right _ (Nat.log2_self_le some_bit)

/-- A whole number of steps of a power of two, whatever its length. -/
theorem round_nearest {m : Nat} {e : Int} (some_bit : m ≠ 0) (moderate : Moderate (m * 2 ^ e)) :
    ∃ b, ∃ h : Nearest (m * 2 ^ e) b,
      Float.ofModel (.pack (UnpackedFloat.round Format.binary64 .positive m e)) =
        magnitude b h.normal := by
  obtain ⟨low, high⟩ := moderate.places some_bit le_rfl (lt_add_one _)
  have wide : 2 ^ 52 ≤ m <<< (52 - m.log2) := by
    rw [Nat.shiftLeft_eq]
    exact leads_of_log2 some_bit
  have exact : ((m <<< (52 - m.log2) : Nat) : ℚ) * 2 ^ (e - (52 - m.log2 : Nat)) = m * 2 ^ e := by
    rw [zpow_sub₀ (by norm_num), zpow_natCast, Nat.shiftLeft_eq]
    push_cast
    field_simp
  have same : UnpackedFloat.round Format.binary64 .positive m e =
      roundWithAccuracy Format.binary64 .positive (m <<< (52 - m.log2)) (e - (52 - m.log2 : Nat))
        .exact := by
    have target : (e - Format.binary64.targetExponent (totalExponent m e)).toNat = 52 - m.log2 := by
      change (e - max ((m.log2 : Int) + 1 + e - 53) (-1074)).toNat = _
      omega
    simp only [UnpackedFloat.round, decreaseExponent, target]
  have rounded := round_moderate (stands_exact (m <<< (52 - m.log2))) wide (exact ▸ moderate)
  rw [exact] at rounded
  rw [same]
  exact rounded

theorem normalize_natCast (some_bit : m ≠ 0) (e : Int) :
    UnpackedFloat.normalize Format.binary64 (m : Int) e .positive =
      UnpackedFloat.round Format.binary64 .positive m e := by
  rw [UnpackedFloat.normalize, Int.compare_eq_gt.2 (by omega)]
  simp only [Int.toNat_natCast]

end

/-! ### Operations -/

section

variable {b c : Binary} (hb : b.Normal) (hc : c.Normal)

theorem mul_magnitude (moderate : Moderate (b.value * c.value)) :
    ∃ d, ∃ h : Nearest (b.value * c.value) d,
      magnitude b hb * magnitude c hc = magnitude d h.normal := by
  have wide : 2 ^ 52 ≤ b.mantissa * c.mantissa :=
    Nat.le_trans hb.mantissa.1 (Nat.le_mul_of_pos_right _ hc.canonical.some_bit)
  have exact : ((b.mantissa * c.mantissa : Nat) : ℚ) * 2 ^ (b.exponent + c.exponent) =
      b.value * c.value := by
    rw [value, value, zpow_add₀ (by norm_num)]
    push_cast
    ring
  have product := round_moderate (stands_exact (b.mantissa * c.mantissa)) wide (exact ▸ moderate)
  rw [exact] at product
  obtain ⟨d, near, rounded⟩ := product
  refine ⟨d, near, ?_⟩
  change Float.ofModel (.pack (UnpackedFloat.mul Format.binary64 (float _ _ _).toModel.unpack
    (float _ _ _).toModel.unpack)) = _
  rw [unpack_float, unpack_float]
  exact rounded

theorem log2_mantissa (h : b.Normal) : b.mantissa.log2 = 52 :=
  (Nat.log2_eq_iff (Nat.ne_of_gt h.canonical.some_bit)).2 h.mantissa

omit hb hc in
theorem stands_fraction {n d : Nat} (some : 0 < d) :
    Stands (.ofMantissaAndAccuracy (n / d) (accuracyOfFraction (n % d) d)) (n / d : ℚ) := by
  have room : (0 : ℚ) < d := by exact_mod_cast some
  have split : (n : ℚ) / d = (n / d : Nat) + (n % d : Nat) / d := by
    have parts : (n : ℚ) = d * (n / d : Nat) + (n % d : Nat) := by
      exact_mod_cast (Nat.div_add_mod n d).symm
    field_simp
    exact parts
  have low : ((n % d : Nat) : ℚ) / d < 1 := by
    rw [div_lt_one room]
    exact_mod_cast Nat.mod_lt n some
  rw [split, accuracyOfFraction]
  generalize n % d = r at low
  split_ifs with zero
  · simp [ExtendedMantissa.ofMantissaAndAccuracy, Stands, zero]
  · have above : (0 : ℚ) < r / d := div_pos (by exact_mod_cast Nat.pos_of_ne_zero zero) room
    cases order : compare (2 * r) d with
    | lt =>
      have half : (r : ℚ) / d < 1 / 2 := by
        rw [div_lt_div_iff₀ room (by norm_num)]
        exact_mod_cast (by have less := Nat.compare_eq_lt.1 order; omega : r * 2 < 1 * d)
      exact ⟨by linarith, by linarith⟩
    | eq =>
      have half : (r : ℚ) / d = 1 / 2 := by
        rw [div_eq_div_iff room.ne' (by norm_num)]
        exact_mod_cast (by have same := Nat.compare_eq_eq.1 order; omega : r * 2 = 1 * d)
      exact congrArg _ half
    | gt =>
      have half : 1 / 2 < (r : ℚ) / d := by
        rw [div_lt_div_iff₀ (by norm_num) room]
        exact_mod_cast (by have less := Nat.compare_eq_gt.1 order; omega : 1 * d < r * 2)
      exact ⟨by linarith, by linarith⟩

theorem div_magnitude (moderate : Moderate (b.value / c.value)) :
    ∃ d, ∃ h : Nearest (b.value / c.value) d,
      magnitude b hb / magnitude c hc = magnitude d h.normal := by
  have some := hc.canonical.some_bit
  have room : (0 : ℚ) < c.mantissa := by exact_mod_cast some
  have wide : 2 ^ 52 ≤ b.mantissa <<< 53 / c.mantissa := by
    rw [Nat.le_div_iff_mul_le some, Nat.shiftLeft_eq]
    exact Nat.mul_le_mul hb.mantissa.1 hc.mantissa.2.le
  have exact : ((b.mantissa <<< 53 : Nat) : ℚ) / c.mantissa * 2 ^ (b.exponent - c.exponent - 53) =
      b.value / c.value := by
    rw [value, value, zpow_sub₀ (by norm_num), zpow_sub₀ (by norm_num), Nat.shiftLeft_eq]
    push_cast
    field_simp
  have least : -1000 < b.exponent - c.exponent + 1 := by
    have ratio : (b.mantissa : ℚ) / c.mantissa < 2 := by
      rw [div_lt_iff₀ room]
      have fits := hb.mantissa.2
      have leads := hc.mantissa.1
      exact_mod_cast (by omega : b.mantissa < 2 * c.mantissa)
    have beyond : b.value / c.value < 2 ^ (b.exponent - c.exponent + 1) := by
      rw [value, value, mul_div_mul_comm, ← zpow_sub₀ (by norm_num), zpow_add_one₀ (by norm_num),
        mul_comm (2 ^ _) (2 : ℚ)]
      exact mul_lt_mul_of_pos_right ratio (zpow_pos (by norm_num) _)
    exact (zpow_lt_zpow_iff_right₀ (by norm_num)).1 (lt_of_le_of_lt moderate.1 beyond)
  have core : divCore Format.binary64 b.mantissa b.exponent c.mantissa c.exponent =
      (b.mantissa <<< 53 / c.mantissa, b.exponent - c.exponent - 53,
        accuracyOfFraction (b.mantissa <<< 53 % c.mantissa) c.mantissa) := by
    have target : min (b.exponent - c.exponent) (Format.binary64.targetExponent
        (totalExponent b.mantissa b.exponent - totalExponent c.mantissa c.exponent)) =
        b.exponent - c.exponent - 53 := by
      change min _ (max ((b.mantissa.log2 : Int) + 1 + b.exponent -
        (c.mantissa.log2 + 1 + c.exponent) - 53) (-1074)) = _
      rw [log2_mantissa hb, log2_mantissa hc]
      omega
    have places : (b.exponent - c.exponent - (b.exponent - c.exponent - 53)).toNat = 53 := by omega
    simp only [divCore, target, places]
  have quotient := round_moderate (stands_fraction some) wide (exact ▸ moderate)
  rw [exact] at quotient
  obtain ⟨d, near, rounded⟩ := quotient
  refine ⟨d, near, ?_⟩
  change Float.ofModel (.pack (UnpackedFloat.div Format.binary64 (float _ _ _).toModel.unpack
    (float _ _ _).toModel.unpack)) = _
  rw [unpack_float, unpack_float]
  simp only [UnpackedFloat.div, core]
  exact rounded

omit hb hc in
theorem shiftLeft_value {m : Nat} {e f : Int} (le : f ≤ e) :
    ((m <<< (e - f).toNat : Nat) : ℚ) * 2 ^ f = m * 2 ^ e := by
  have apart : ((e - f).toNat : Int) + f = e := by omega
  rw [Nat.shiftLeft_eq, Nat.cast_mul, Nat.cast_pow, Nat.cast_ofNat, ← zpow_natCast, mul_assoc,
    ← zpow_add₀ (by norm_num), apart]

theorem add_magnitude (moderate : Moderate (b.value + c.value)) :
    ∃ d, ∃ h : Nearest (b.value + c.value) d,
      magnitude b hb + magnitude c hc = magnitude d h.normal := by
  have exact : ((b.mantissa <<< (b.exponent - min b.exponent c.exponent).toNat +
      c.mantissa <<< (c.exponent - min b.exponent c.exponent).toNat : Nat) : ℚ) *
        2 ^ min b.exponent c.exponent = b.value + c.value := by
    rw [Nat.cast_add, add_mul, shiftLeft_value (min_le_left _ _), shiftLeft_value (min_le_right _ _),
      value, value]
  have some : 0 < b.mantissa <<< (b.exponent - min b.exponent c.exponent).toNat := by
    rw [Nat.shiftLeft_eq]
    exact Nat.mul_pos hb.canonical.some_bit (Nat.two_pow_pos _)
  generalize total : b.mantissa <<< (b.exponent - min b.exponent c.exponent).toNat +
    c.mantissa <<< (c.exponent - min b.exponent c.exponent).toNat = m at exact
  have some_bit : m ≠ 0 := Nat.ne_of_gt (total ▸ Nat.add_pos_left some _)
  have sum := round_nearest some_bit (exact ▸ moderate)
  rw [exact] at sum
  obtain ⟨d, near, rounded⟩ := sum
  refine ⟨d, near, ?_⟩
  change Float.ofModel (.pack (UnpackedFloat.add Format.binary64 (float _ _ _).toModel.unpack
    (float _ _ _).toModel.unpack)) = _
  rw [unpack_float, unpack_float]
  rw [← normalize_natCast some_bit, ← total] at rounded
  rw [← rounded]
  rfl

end

/-! ### Whole numbers -/

/-- A number with no more digits between its first and its last bit than a float has. -/
def Fits (n : Nat) : Prop := ∃ m places, m < 2 ^ 53 ∧ n = m * 2 ^ places

theorem Fits.of_lt {n : Nat} (small : n < 2 ^ 53) : Fits n := ⟨n, 0, small, (Nat.mul_one n).symm⟩

/-- The float is the number itself. -/
inductive Exactly : Float → Nat → Prop where
  | zero {x : Float} : x.toModel.unpack = .zero .positive → Exactly x 0
  | magnitude {b : Binary} {n : Nat} (h : b.Normal) : b.value = n → n ≠ 0 → Exactly (magnitude b h) n

theorem moderate_natCast {n : Nat} (some : n ≠ 0) (small : n < 2 ^ 200) : Moderate n := by
  have one : (1 : ℚ) ≤ n := by exact_mod_cast Nat.pos_of_ne_zero some
  have least : (2 : ℚ) ^ (-1000 : ℤ) ≤ 1 := zpow_le_one_of_nonpos₀ (by norm_num) (by norm_num)
  have beyond : (n : ℚ) < 2 ^ 200 := by exact_mod_cast small
  refine ⟨le_trans least one, lt_of_lt_of_le beyond ?_⟩
  rw [← zpow_natCast]
  exact zpow_le_zpow_right₀ (by norm_num) (by norm_num)

theorem moderate_div {n k : Nat} (some : n ≠ 0) (small : n < 2 ^ 200) (other : k ≠ 0)
    (room : k < 2 ^ 200) : Moderate (n / k) := by
  have one : (1 : ℚ) ≤ n := by exact_mod_cast Nat.pos_of_ne_zero some
  have unit : (1 : ℚ) ≤ k := by exact_mod_cast Nat.pos_of_ne_zero other
  have bound : (k : ℚ) ≤ 2 ^ (200 : ℤ) := by
    rw [show (2 : ℚ) ^ (200 : ℤ) = 2 ^ 200 from zpow_natCast 2 200]
    exact_mod_cast room.le
  constructor
  · have floor : (0 : ℚ) < 2 ^ (-1000 : ℤ) := zpow_pos (by norm_num) _
    rw [le_div_iff₀ (by linarith)]
    calc (2 : ℚ) ^ (-1000 : ℤ) * k ≤ 2 ^ (-1000 : ℤ) * 2 ^ (200 : ℤ) :=
          mul_le_mul_of_nonneg_left bound floor.le
      _ = 2 ^ (-800 : ℤ) := (zpow_add₀ (by norm_num) _ _).symm
      _ ≤ 1 := zpow_le_one_of_nonpos₀ (by norm_num) (by norm_num)
      _ ≤ n := one
  · exact lt_of_le_of_lt (div_le_self (by linarith) unit) (moderate_natCast some small).2

theorem Fits.exists_normal {n : Nat} (h : Fits n) (some : n ≠ 0) (small : n < 2 ^ 200) :
    ∃ b : Binary, b.Normal ∧ b.value = n := by
  obtain ⟨m, places, low, rfl⟩ := h
  have some_bit : m ≠ 0 := fun zero => some (by rw [zero, Nat.zero_mul])
  have bits : m.log2 < 53 := (Nat.log2_lt some_bit).2 low
  have few : places < 200 := by
    by_contra! many
    have least := Nat.pow_le_pow_right (n := 2) (by decide) many
    have more := Nat.le_mul_of_pos_left (2 ^ places) (Nat.pos_of_ne_zero some_bit)
    omega
  have up : 52 = m.log2 + (52 - m.log2) := by omega
  refine ⟨⟨m * 2 ^ (52 - m.log2), places - (52 - m.log2 : Nat)⟩, ⟨⟨?_, ?_⟩, ?_⟩, ?_⟩
  · exact leads_of_log2 some_bit
  · calc m * 2 ^ (52 - m.log2) < 2 ^ (m.log2 + 1) * 2 ^ (52 - m.log2) :=
          Nat.mul_lt_mul_of_pos_right Nat.lt_log2_self (Nat.two_pow_pos _)
      _ = 2 ^ 53 := by rw [← Nat.pow_add]; congr 1; omega
  · simp only
    omega
  · rw [value, zpow_sub₀ (by norm_num), zpow_natCast, zpow_natCast]
    push_cast
    field_simp

/-- A result that is nearest to a number that fits is that number. -/
theorem exactly_of_nearest {x : Float} {n : Nat} (fits : Fits n) (some : n ≠ 0) (small : n < 2 ^ 200)
    (near : ∃ d, ∃ h : Nearest (n : ℚ) d, x = magnitude d h.normal) : Exactly x n := by
  obtain ⟨d, near, rfl⟩ := near
  obtain ⟨b, normal, same⟩ := fits.exists_normal some small
  have exact := nearest_value normal
  rw [same] at exact
  cases near.unique exact
  exact .magnitude normal same some

theorem Exactly.exists_magnitude {x : Float} {n : Nat} (h : Exactly x n) (some : n ≠ 0) :
    ∃ b, ∃ normal : b.Normal, b.value = (n : ℚ) ∧ x = Binary.magnitude b normal := by
  cases h with
  | zero => contradiction
  | magnitude normal same => exact ⟨_, normal, same, rfl⟩

/-- The float of a natural number. -/
def ofNat (n : Nat) : Float := .ofModel (.ofNat n)

theorem exactly_ofNat {n : Nat} (fits : Fits n) (small : n < 2 ^ 200) : Exactly (ofNat n) n := by
  by_cases zero : n = 0
  · rw [zero]
    exact .zero rfl
  · refine exactly_of_nearest fits zero small ?_
    have normalized : UnpackedFloat.ofNat Format.binary64 n =
        UnpackedFloat.round Format.binary64 .positive n 0 := normalize_natCast zero 0
    have same : (n : ℚ) * 2 ^ (0 : ℤ) = n := by rw [zpow_zero, mul_one]
    have rounded := round_nearest zero (same.symm ▸ moderate_natCast zero small)
    rwa [same, ← normalized] at rounded

variable {x y : Float} {m n : Nat}

theorem Exactly.mul (hx : Exactly x m) (hy : Exactly y n) (fits : Fits (m * n))
    (small : m * n < 2 ^ 200) : Exactly (x * y) (m * n) := by
  have product : ∀ {u v}, x.toModel.unpack = u → y.toModel.unpack = v →
      (x * y).toModel = .pack (UnpackedFloat.mul Format.binary64 u v) := by
    rintro _ _ rfl rfl
    rfl
  have zero : (Float.Model.pack (.zero .positive)).unpack = .zero .positive := by rfl
  cases hx with
  | zero hx =>
    rw [Nat.zero_mul]
    refine .zero ?_
    cases hy with
    | zero hy =>
      rw [product hx hy]
      exact zero
    | magnitude h _ _ =>
      rw [product hx (unpack_float _ _)]
      exact zero
  | magnitude h same some =>
    cases hy with
    | zero hy =>
      rw [Nat.mul_zero]
      refine .zero ?_
      rw [product (unpack_float _ _) hy]
      exact zero
    | magnitude h' same' some' =>
      have other := Nat.mul_ne_zero some some'
      have moderate := moderate_natCast other small
      have nearest := mul_magnitude h h' (by rw [same, same']; exact_mod_cast moderate)
      rw [same, same'] at nearest
      exact exactly_of_nearest fits other small (by exact_mod_cast nearest)

theorem Exactly.add (hx : Exactly x m) (hy : Exactly y n) (fits : Fits (m + n))
    (small : m + n < 2 ^ 200) : Exactly (x + y) (m + n) := by
  have sum : ∀ {u v}, x.toModel.unpack = u → y.toModel.unpack = v →
      x + y = .ofModel (.pack (UnpackedFloat.add Format.binary64 u v)) := by
    rintro _ _ rfl rfl
    rfl
  cases hx with
  | zero hx =>
    rw [Nat.zero_add]
    cases hy with
    | zero hy =>
      rw [sum hx hy]
      exact .zero rfl
    | magnitude h same some =>
      rw [sum hx (unpack_float _ _)]
      exact .magnitude h same some
  | magnitude h same some =>
    cases hy with
    | zero hy =>
      rw [sum (unpack_float _ _) hy]
      exact .magnitude h same some
    | magnitude h' same' some' =>
      have other : m + n ≠ 0 := by omega
      have moderate := moderate_natCast other small
      have nearest := add_magnitude h h' (by rw [same, same']; exact_mod_cast moderate)
      rw [same, same'] at nearest
      exact exactly_of_nearest fits other small (by exact_mod_cast nearest)

end JsonTree.Binary
