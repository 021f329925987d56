import JsonTree.Proofs.FloatBits

/-!
Rounding. A positive rational in the range of the floats with a leading bit has at most one nearest
float, and rounding finds it by the bits of a mantissa and the two after them.
-/
namespace JsonTree.Binary

open Float.Model Float.Model.UnpackedFloat

/-- A whole number is the nearest to a rational. From the middle between two the even one is. -/
structure RoundsTo (q : ℚ) (n : Nat) : Prop where
  least : n - 1 / 2 ≤ q
  greatest : q ≤ n + 1 / 2
  odd : n % 2 = 1 → n - 1 / 2 < q ∧ q < n + 1 / 2

/-- The number that a mantissa is the whole part of, as far as the two bits after it tell. -/
def Stands : ExtendedMantissa → ℚ → Prop
  | ⟨m, false, false⟩, q => q = m
  | ⟨m, false, true⟩, q => m < q ∧ q < m + 1 / 2
  | ⟨m, true, false⟩, q => q = m + 1 / 2
  | ⟨m, true, true⟩, q => m + 1 / 2 < q ∧ q < m + 1

namespace Stands

variable {t : ExtendedMantissa} {q : ℚ}

theorem bounds (h : Stands t q) : t.mantissa ≤ q ∧ q < t.mantissa + 1 := by
  obtain ⟨m, half, more⟩ := t
  cases half <;> cases more <;> simp only [Stands] at h ⊢ <;> constructor <;> linarith

theorem halved (h : Stands t q) : Stands t.shiftRightOne (q / 2) := by
  obtain ⟨m, half, more⟩ := t
  have parts : (m : ℚ) = 2 * (m / 2 : Nat) + (m % 2 : Nat) := by exact_mod_cast (Nat.div_add_mod m 2).symm
  rcases Nat.mod_two_eq_zero_or_one m with even | odd
  · rw [even] at parts
    cases half <;> cases more <;>
      simp [Stands, ExtendedMantissa.shiftRightOne, even] at h parts ⊢ <;>
      (try constructor) <;> linarith
  · rw [odd] at parts
    cases half <;> cases more <;>
      simp [Stands, ExtendedMantissa.shiftRightOne, odd] at h parts ⊢ <;>
      (try constructor) <;> linarith

theorem shifted (h : Stands t q) (n : Nat) : Stands (t >>> n) (q / 2 ^ n) := by
  change Stands (n.repeat ExtendedMantissa.shiftRightOne t) _
  induction n with
  | zero => simpa [Nat.repeat] using h
  | succ n ih =>
    rw [Nat.repeat, pow_succ, ← div_div]
    exact ih.halved

theorem rounded (h : Stands t q) : RoundsTo q t.roundedMantissa := by
  obtain ⟨m, half, more⟩ := t
  have same : ExtendedMantissa.roundedMantissa ⟨m, true, false⟩ = m + m % 2 := rfl
  have up : ExtendedMantissa.roundedMantissa ⟨m, true, true⟩ = m + 1 := rfl
  have down : ∀ more, ExtendedMantissa.roundedMantissa ⟨m, false, more⟩ = m := by
    rintro (_ | _) <;> rfl
  cases half <;> cases more <;> simp only [Stands] at h
  · rw [down, h]
    exact ⟨by linarith, by linarith, fun _ => ⟨by linarith, by linarith⟩⟩
  · rw [down]
    exact ⟨by linarith, by linarith, fun _ => ⟨by linarith, by linarith⟩⟩
  · have even : (m + m % 2) % 2 = 0 := by omega
    have low : ((m + m % 2 : Nat) : ℚ) ≤ m + 1 := by
      exact_mod_cast Nat.add_le_add_left (Nat.le_of_lt_succ (Nat.mod_lt m (by decide))) m
    have high : (m : ℚ) ≤ (m + m % 2 : Nat) := by exact_mod_cast Nat.le_add_right _ _
    rw [same, h]
    refine ⟨by linarith, by linarith, fun odd => ?_⟩
    rw [even] at odd
    contradiction
  · have next : ((m + 1 : Nat) : ℚ) = m + 1 := Nat.cast_succ m
    rw [up]
    exact ⟨by linarith, by linarith, fun _ => ⟨by linarith, by linarith⟩⟩

end Stands

/-! ### Nearest floats -/

def value (b : Binary) : ℚ := b.mantissa * 2 ^ b.exponent

/-- The half of the distance to the float below, in steps of the mantissa. Below a power of two the
floats lie twice as close. -/
def below (b : Binary) : ℚ := if b.mantissa = 2 ^ 52 then 1 / 4 else 1 / 2

/-- A magnitude with a leading bit that a float can have. -/
structure Normal (b : Binary) : Prop where
  mantissa : 2 ^ 52 ≤ b.mantissa ∧ b.mantissa < 2 ^ 53
  exponent : -1074 ≤ b.exponent ∧ b.exponent ≤ 971

theorem Normal.canonical {b : Binary} (h : b.Normal) : b.Canonical :=
  ⟨Nat.lt_of_lt_of_le (Nat.two_pow_pos 52) h.mantissa.1, h.mantissa.2, h.exponent, .inl h.mantissa.1⟩

/-- The magnitude is nearest to a positive rational among all magnitudes. From the middle between two
the one with the even mantissa is. -/
structure Nearest (q : ℚ) (b : Binary) : Prop where
  normal : b.Normal
  least : (b.mantissa - b.below) * 2 ^ b.exponent ≤ q
  greatest : q ≤ (b.mantissa + 1 / 2) * 2 ^ b.exponent
  odd : b.mantissa % 2 = 1 →
    (b.mantissa - b.below) * 2 ^ b.exponent < q ∧ q < (b.mantissa + 1 / 2) * 2 ^ b.exponent

theorem below_pos (b : Binary) : 0 < b.below ∧ b.below ≤ 1 / 2 := by
  rw [below]
  split <;> norm_num

theorem nearest_value {b : Binary} (h : b.Normal) : Nearest b.value b := by
  have place : (0 : ℚ) < 2 ^ b.exponent := zpow_pos (by norm_num) _
  obtain ⟨some, half⟩ := below_pos b
  have least : (b.mantissa - b.below) * 2 ^ b.exponent < b.value :=
    mul_lt_mul_of_pos_right (by linarith) place
  have greatest : b.value < (b.mantissa + 1 / 2) * 2 ^ b.exponent :=
    mul_lt_mul_of_pos_right (by linarith) place
  exact ⟨h, least.le, greatest.le, fun _ => ⟨least, greatest⟩⟩

/-- The place of the leading bit of what a float is nearest to. From the middle below a power of two it
is the bit before. -/
theorem Nearest.range {q : ℚ} {b : Binary} (h : Nearest q b) :
    2 ^ (b.exponent + 51) ≤ q ∧ q < 2 ^ (b.exponent + 53) := by
  have step : (0 : ℚ) < 2 ^ b.exponent := zpow_pos (by norm_num) _
  have leads : (2 : ℚ) ^ 52 ≤ b.mantissa := by exact_mod_cast h.normal.mantissa.1
  have fits : (b.mantissa : ℚ) + 1 ≤ 2 ^ 53 := by exact_mod_cast h.normal.mantissa.2
  have half := (below_pos b).2
  rw [zpow_add₀ (by norm_num), zpow_add₀ (by norm_num), mul_comm, mul_comm (2 ^ b.exponent)]
  constructor
  · refine le_trans (mul_le_mul_of_nonneg_right ?_ step.le) h.least
    rw [show (2 : ℚ) ^ (51 : ℤ) = 2 ^ 51 from zpow_natCast 2 51]
    linarith
  · refine lt_of_le_of_lt h.greatest (mul_lt_mul_of_pos_right ?_ step)
    rw [show (2 : ℚ) ^ (53 : ℤ) = 2 ^ 53 from zpow_natCast 2 53]
    linarith

/-- Whatever lies between a number and the float nearest to it has the same nearest float. -/
theorem Nearest.between {q r : ℚ} {b : Binary} (h : Nearest q b)
    (inside : q ≤ r ∧ r ≤ b.value ∨ b.value ≤ r ∧ r ≤ q) : Nearest r b := by
  have own := nearest_value h.normal
  rcases inside with ⟨above, under⟩ | ⟨above, under⟩
  · exact ⟨h.normal, le_trans h.least above, le_trans under own.greatest, fun odd =>
      ⟨lt_of_lt_of_le (h.odd odd).1 above, lt_of_le_of_lt under (own.odd odd).2⟩⟩
  · exact ⟨h.normal, le_trans own.least above, le_trans under h.greatest, fun odd =>
      ⟨lt_of_lt_of_le (own.odd odd).1 above, lt_of_le_of_lt under (h.odd odd).2⟩⟩

/-- A float with a smaller exponent is nearest to smaller numbers only. -/
theorem Nearest.exponent_le {q : ℚ} {b c : Binary} (hb : Nearest q b) (hc : Nearest q c) :
    c.exponent ≤ b.exponent := by
  by_contra! less
  have place : (0 : ℚ) < 2 ^ b.exponent := zpow_pos (by norm_num) _
  have next : 2 * (2 : ℚ) ^ b.exponent ≤ 2 ^ c.exponent := by
    rw [mul_comm, ← zpow_add_one₀ (by norm_num)]
    exact zpow_le_zpow_right₀ (by norm_num) less
  have edge : (2 : ℚ) ^ 52 - 1 / 4 ≤ c.mantissa - c.below := by
    rw [below]
    split
    · rename_i same
      rw [same]
      push_cast
      exact le_rfl
    · have above : (2 : ℚ) ^ 52 + 1 ≤ c.mantissa := by
        exact_mod_cast Nat.lt_of_le_of_ne hc.normal.mantissa.1 (Ne.symm ‹_›)
      linarith
  have low : ((2 : ℚ) ^ 52 - 1 / 4) * 2 ^ c.exponent ≤ q :=
    le_trans (mul_le_mul_of_nonneg_right edge (zpow_pos (by norm_num) _).le) hc.least
  have least : ((2 : ℚ) ^ 53 - 1 / 2) * 2 ^ b.exponent ≤ q := by
    refine le_trans ?_ low
    nlinarith
  -- The greatest mantissa is odd, so the middle to the next power of two is not its own.
  by_cases greatest : b.mantissa = 2 ^ 53 - 1
  · have high := (hb.odd (by rw [greatest]; rfl)).2
    rw [greatest] at high
    push_cast at high
    linarith
  · have fits : (b.mantissa : ℚ) + 2 ≤ 2 ^ 53 := by
      have room := hb.normal.mantissa.2
      exact_mod_cast (by omega : b.mantissa + 2 ≤ 2 ^ 53)
    have high := hb.greatest
    nlinarith

theorem Nearest.mantissa_le {q : ℚ} {b c : Binary} (hb : Nearest q b) (hc : Nearest q c)
    (same : b.exponent = c.exponent) : c.mantissa ≤ b.mantissa := by
  by_contra! less
  have place : (0 : ℚ) < 2 ^ b.exponent := zpow_pos (by norm_num) _
  have next : (b.mantissa : ℚ) + 1 ≤ c.mantissa := by exact_mod_cast less
  have half := (below_pos c).2
  have high := hb.greatest
  have low := hc.least
  rw [← same] at low
  have middle : (b.mantissa + 1 / 2 : ℚ) * 2 ^ b.exponent ≤ (c.mantissa - c.below) * 2 ^ b.exponent :=
    mul_le_mul_of_nonneg_right (by linarith) place.le
  -- A number in the middle between two mantissas is nearest to the even one only.
  rcases Nat.mod_two_eq_zero_or_one b.mantissa with even | odd
  · by_cases neighbour : c.mantissa = b.mantissa + 1
    · have strict := (hc.odd (by omega)).1
      rw [← same] at strict
      linarith
    · have apart : (b.mantissa : ℚ) + 2 ≤ c.mantissa := by
        exact_mod_cast (by omega : b.mantissa + 2 ≤ c.mantissa)
      nlinarith
  · have strict := (hb.odd odd).2
    linarith

theorem Nearest.unique {q : ℚ} {b c : Binary} (hb : Nearest q b) (hc : Nearest q c) : b = c := by
  have exponent := Int.le_antisymm (hc.exponent_le hb) (hb.exponent_le hc)
  have mantissa := Nat.le_antisymm (hc.mantissa_le hb exponent.symm) (hb.mantissa_le hc exponent)
  obtain ⟨m, e⟩ := b
  cases exponent
  cases mantissa
  rfl

/-! ### Rounding to a mantissa -/

/-- A number of more bits than a mantissa has is moved down by those beyond it. -/
theorem shiftToTargetExponent_eq {m : Nat} {e : Int} (acc : Accuracy) {places : Nat}
    (wide : m.log2 = 52 + places) (low : -1074 ≤ e + places) :
    shiftToTargetExponent Format.binary64 m e acc =
      (ExtendedMantissa.ofMantissaAndAccuracy m acc >>> places, e + places) := by
  have target : Format.binary64.targetExponent (totalExponent m e) = e + places := by
    change max ((m.log2 : Int) + 1 + e - 53) (-1074) = _
    rw [wide]
    push_cast
    omega
  rw [shiftToTargetExponent, target, shiftToExponent, add_sub_cancel_left, Int.toNat_natCast]

theorem mantissa_shiftRight (t : ExtendedMantissa) (n : Nat) : (t >>> n).mantissa = t.mantissa / 2 ^ n := by
  change (n.repeat ExtendedMantissa.shiftRightOne t).mantissa = _
  induction n with
  | zero => simp [Nat.repeat]
  | succ n ih =>
    rw [Nat.repeat, pow_succ, ← Nat.div_div_eq_div_mul, ← ih]
    rfl

theorem mantissa_ofMantissaAndAccuracy (m : Nat) (acc : Accuracy) :
    (ExtendedMantissa.ofMantissaAndAccuracy m acc).mantissa = m := by
  cases acc with
  | exact => rfl
  | inexact order => cases order <;> rfl

/-- What is left after moving down has just the bits of a mantissa. -/
theorem shifted_range {m places : Nat} (some_bit : m ≠ 0) (wide : m.log2 = 52 + places) :
    2 ^ 52 ≤ m / 2 ^ places ∧ m / 2 ^ places < 2 ^ 53 := by
  obtain ⟨least, beyond⟩ := (Nat.log2_eq_iff some_bit).1 wide
  rw [Nat.le_div_iff_mul_le (Nat.two_pow_pos _), Nat.div_lt_iff_lt_mul (Nat.two_pow_pos _),
    ← Nat.pow_add, ← Nat.pow_add]
  rw [Nat.add_right_comm] at beyond
  exact ⟨least, beyond⟩

/-- A rounded mantissa that has grown by a bit is kept with the next exponent. -/
def carried (n : Nat) (e : Int) : Binary := if n = 2 ^ 53 then ⟨2 ^ 52, e + 1⟩ else ⟨n, e⟩

theorem RoundsTo.range {q : ℚ} {n : Nat} (h : RoundsTo q n) (least : 2 ^ 52 ≤ q) (beyond : q < 2 ^ 53) :
    2 ^ 52 ≤ n ∧ n ≤ 2 ^ 53 := by
  obtain ⟨low, high, _⟩ := h
  constructor
  · have above : ((2 ^ 52 : Nat) : ℚ) < n + 1 := by
      push_cast
      linarith
    exact Nat.le_of_lt_succ (by exact_mod_cast above)
  · have above : (n : ℚ) < (2 ^ 53 : Nat) + 1 := by
      push_cast
      linarith
    exact Nat.le_of_lt_succ (by exact_mod_cast above)

theorem nearest_carried {q : ℚ} {n : Nat} (rounds : RoundsTo q n) (least : 2 ^ 52 ≤ q)
    (beyond : q < 2 ^ 53) {e : Int} (low : -1074 ≤ e) (high : e < 971) :
    Nearest (q * 2 ^ e) (carried n e) := by
  obtain ⟨leads, fits⟩ := rounds.range least beyond
  have place : (0 : ℚ) < 2 ^ e := zpow_pos (by norm_num) e
  rw [carried]
  split
  · rename_i grown
    have next : (2 : ℚ) ^ (e + 1) = 2 * 2 ^ e := by rw [zpow_add_one₀ (by norm_num), mul_comm]
    have near := rounds.least
    rw [grown] at near
    push_cast at near
    have even : 2 ^ 52 % 2 ≠ 1 := by decide
    refine ⟨⟨⟨Nat.le_refl _, Nat.pow_lt_pow_right (by decide) (by decide)⟩,
      ⟨by simp only; omega, by simp only; omega⟩⟩, ?_, ?_, fun odd => absurd odd even⟩
    · simp only [below, next]
      push_cast
      nlinarith
    · simp only [next]
      push_cast
      nlinarith
  · rename_i fitting
    have half : (n - below ⟨n, e⟩ : ℚ) ≤ q := by
      simp only [below]
      split
      · rename_i edge
        rw [edge]
        push_cast
        linarith
      · exact rounds.least
    refine ⟨⟨⟨leads, by simp only; omega⟩, ⟨low, by simp only; omega⟩⟩, ?_, ?_, ?_⟩
    · exact mul_le_mul_of_nonneg_right half place.le
    · exact mul_le_mul_of_nonneg_right rounds.greatest place.le
    · intro odd
      have inside := rounds.odd odd
      have other : below ⟨n, e⟩ = 1 / 2 := by
        rw [below, if_neg]
        simp only at odd ⊢
        omega
      rw [other]
      exact ⟨mul_lt_mul_of_pos_right inside.1 place, mul_lt_mul_of_pos_right inside.2 place⟩

theorem shiftToTargetExponent_carried {n : Nat} (leads : 2 ^ 52 ≤ n) (fits : n ≤ 2 ^ 53) {e : Int}
    (low : -1074 ≤ e) :
    (shiftToTargetExponent Format.binary64 n e .exact).1.mantissa = (carried n e).mantissa ∧
      (shiftToTargetExponent Format.binary64 n e .exact).2 = (carried n e).exponent := by
  have whole : (ExtendedMantissa.ofMantissaAndAccuracy n .exact).mantissa = n := rfl
  rw [carried]
  split
  · rename_i grown
    have wide : n.log2 = 52 + 1 := by rw [grown, Nat.log2_two_pow]
    rw [shiftToTargetExponent_eq .exact wide (by omega), mantissa_shiftRight, whole, grown]
    exact ⟨rfl, rfl⟩
  · have wide : n.log2 = 52 + 0 := (Nat.log2_eq_iff (by omega)).2 ⟨leads, by omega⟩
    rw [shiftToTargetExponent_eq .exact wide (by omega), mantissa_shiftRight, whole, pow_zero,
      Nat.div_one]
    exact ⟨rfl, Int.add_zero e⟩

/-- Rounding at a place where the mantissa has its leading bit gives the nearest float. -/
theorem roundWithAccuracy_nearest {m : Nat} {e : Int} {acc : Accuracy} {p : ℚ}
    (stands : Stands (.ofMantissaAndAccuracy m acc) p) {places : Nat} (some_bit : m ≠ 0) (wide : m.log2 = 52 + places) (low : -1074 ≤ e + places)
    (high : e + places < 971) (s : UnpackedFloat.Sign) :
    ∃ b : Binary, Nearest (p * 2 ^ e) b ∧ ∃ some : 0 < b.mantissa,
      roundWithAccuracy Format.binary64 s m e acc = .finite s b.mantissa b.exponent some := by
  have part := stands.shifted places
  obtain ⟨leads, fits⟩ := shifted_range some_bit wide
  obtain ⟨above, under⟩ := part.bounds
  rw [mantissa_shiftRight, mantissa_ofMantissaAndAccuracy] at above under
  have least : (2 : ℚ) ^ 52 ≤ p / 2 ^ places := le_trans (by exact_mod_cast leads) above
  have beyond : p / 2 ^ places < 2 ^ 53 :=
    lt_of_lt_of_le under (by exact_mod_cast Nat.succ_le_of_lt fits)
  have rounds := part.rounded
  obtain ⟨leads, fits⟩ := rounds.range least beyond
  obtain ⟨mantissa, exponent⟩ := shiftToTargetExponent_carried leads fits low
  have near := nearest_carried rounds least beyond low high
  have scale : p / 2 ^ places * 2 ^ (e + places) = p * 2 ^ e := by
    rw [add_comm, zpow_add₀ (by norm_num), zpow_natCast, ← mul_assoc, div_mul_cancel₀]
    exact pow_ne_zero _ (by norm_num)
  rw [scale] at near
  have some : 0 < (carried (ExtendedMantissa.ofMantissaAndAccuracy m acc >>> places).roundedMantissa
      (e + places)).mantissa := near.normal.canonical.some_bit
  refine ⟨_, near, some, ?_⟩
  rw [roundWithAccuracy, shiftToTargetExponent_eq acc wide low]
  simp only
  rw [dif_neg]
  · exact finite_congr mantissa exponent
  · rw [mantissa]
    exact Nat.ne_of_gt some

end JsonTree.Binary
