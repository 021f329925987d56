import JsonTree.Decimal.Shortest
import JsonTree.Proofs.FloatArithmetic

/-!
The shortest decimals. A decimal that lies between the midpoints to the adjacent floats is one that the
float is nearest to, and the search for the fewest digits ends no later than at any such decimal.
-/
namespace JsonTree.Decimal

open Binary

/-! ### The grid -/

/-- What a unit of the whole numbers on a grid stands for. -/
def unit (b : Binary) (k : Int) : ℚ := 10 ^ k / b.one k

section

variable (b : Binary) (k : Int)

theorem one_pos : (0 : ℚ) < b.one k := by
  exact_mod_cast Nat.mul_pos (Nat.pow_pos (by decide)) (Nat.pow_pos (by decide))

theorem unit_pos : 0 < unit b k := div_pos (zpow_pos (by norm_num) k) (one_pos b k)

theorem one_unit : b.one k * unit b k = 10 ^ k := mul_div_cancel₀ _ (one_pos b k).ne'

theorem pow_toNat {a : ℚ} (other : a ≠ 0) (z : Int) : a ^ z.toNat = a ^ (-z).toNat * a ^ z := by
  rw [← zpow_natCast, ← zpow_natCast, ← zpow_add₀ other]
  congr 1
  omega

theorem quarter_unit : b.quarter k * unit b k = 2 ^ b.exponent / 4 := by
  have two := pow_toNat (a := 2) (by norm_num) (b.exponent - 2)
  have ten := pow_toNat (a := 10) (by norm_num) (-k)
  have place : (10 : ℚ) ^ (-k) * 10 ^ k = 1 := by
    rw [← zpow_add₀ (by norm_num), neg_add_cancel, zpow_zero]
  have steps : (2 : ℚ) ^ (b.exponent - 2) = 2 ^ b.exponent / 4 := by
    rw [zpow_sub₀ (by norm_num)]
    norm_num
  have quarter : (b.quarter k : ℚ) = 2 ^ (b.exponent - 2).toNat * 10 ^ (-k).toNat := by
    exact_mod_cast rfl
  have one : (b.one k : ℚ) = 2 ^ (2 - b.exponent).toNat * 10 ^ k.toNat := by
    exact_mod_cast rfl
  rw [neg_sub] at two
  rw [neg_neg] at ten
  rw [unit, ← mul_div_assoc, div_eq_iff (one_pos b k).ne', quarter, one, two, ten, steps]
  linear_combination (2 ^ (2 - b.exponent).toNat * 10 ^ k.toNat * (2 ^ b.exponent / 4)) * place

end

section

variable {b : Binary} {k : Int} {d n : Nat}

theorem le_quarter_iff : d * b.one k ≤ n * b.quarter k ↔ d * 10 ^ k ≤ n / 4 * (2 : ℚ) ^ b.exponent := by
  rw [← Nat.cast_le (α := ℚ), ← mul_le_mul_iff_left₀ (unit_pos b k), Nat.cast_mul, Nat.cast_mul,
    mul_assoc, one_unit, mul_assoc, quarter_unit]
  ring_nf

theorem quarter_le_iff : n * b.quarter k ≤ d * b.one k ↔ n / 4 * (2 : ℚ) ^ b.exponent ≤ d * 10 ^ k := by
  rw [← Nat.cast_le (α := ℚ), ← mul_le_mul_iff_left₀ (unit_pos b k), Nat.cast_mul, Nat.cast_mul,
    mul_assoc, quarter_unit, mul_assoc, one_unit]
  ring_nf

theorem lt_quarter_iff : d * b.one k < n * b.quarter k ↔ d * 10 ^ k < n / 4 * (2 : ℚ) ^ b.exponent := by
  rw [← not_le, quarter_le_iff, not_le]

theorem quarter_lt_iff : n * b.quarter k < d * b.one k ↔ n / 4 * (2 : ℚ) ^ b.exponent < d * 10 ^ k := by
  rw [← not_le, le_quarter_iff, not_le]

/-- What is tested about a decimal is that the float is nearest to it. -/
theorem roundsTo_iff (h : b.Normal) : roundsTo b k d ↔ Nearest (d * 10 ^ k) b := by
  have leads := h.mantissa.1
  have leadingBit : Binary.leadingBit = 2 ^ 52 := rfl
  have least : ((4 * b.mantissa - (if b.mantissa = Binary.leadingBit then 1 else 2) : Nat) : ℚ) / 4 =
      b.mantissa - b.below := by
    rw [leadingBit, below]
    split
    · rw [Nat.cast_sub (by omega)]
      push_cast
      ring
    · rw [Nat.cast_sub (by omega)]
      push_cast
      ring
  have greatest : ((4 * b.mantissa + 2 : Nat) : ℚ) / 4 = b.mantissa + 1 / 2 := by
    push_cast
    ring
  have low := quarter_le_iff (b := b) (k := k) (d := d)
    (n := 4 * b.mantissa - if b.mantissa = Binary.leadingBit then 1 else 2)
  have above := quarter_lt_iff (b := b) (k := k) (d := d)
    (n := 4 * b.mantissa - if b.mantissa = Binary.leadingBit then 1 else 2)
  have high := le_quarter_iff (b := b) (k := k) (d := d) (n := 4 * b.mantissa + 2)
  have under := lt_quarter_iff (b := b) (k := k) (d := d) (n := 4 * b.mantissa + 2)
  rw [least] at low above
  rw [greatest] at high under
  simp only [roundsTo]
  by_cases even : b.mantissa % 2 = 0
  · rw [if_pos even, Bool.and_eq_true, decide_eq_true_eq, decide_eq_true_eq, low, high]
    constructor
    · rintro ⟨low, high⟩
      exact ⟨h, low, high, fun odd => by omega⟩
    · rintro ⟨_, low, high, _⟩
      exact ⟨low, high⟩
  · rw [if_neg even, Bool.and_eq_true, decide_eq_true_eq, decide_eq_true_eq, above, under]
    constructor
    · rintro ⟨above, under⟩
      exact ⟨h, above.le, under.le, fun _ => ⟨above, under⟩⟩
    · rintro ⟨_, _, _, inside⟩
      exact inside (by omega)

/-- The value of the float on the grid, and the next decimal. -/
theorem scaled_bounds (b : Binary) (k : Int) :
    ((b.scaled k / b.one k : Nat) : ℚ) * 10 ^ k ≤ b.value ∧
      b.value ≤ ((b.scaled k / b.one k + 1 : Nat) : ℚ) * 10 ^ k := by
  have some : 0 < b.one k := by exact_mod_cast one_pos b k
  have value : ((4 * b.mantissa : Nat) : ℚ) / 4 * 2 ^ b.exponent = b.value := by
    rw [Binary.value]
    push_cast
    ring
  constructor
  · rw [← value, ← le_quarter_iff]
    exact Nat.div_mul_le_self _ _
  · have next := Nat.lt_mul_div_succ (b.scaled k) some
    rw [Nat.mul_comm] at next
    rw [← value, ← quarter_le_iff]
    exact next.le

/-- If any decimal of the grid rounds to the float, one of the two next to its value does. -/
theorem exists_neighbour (normal : b.Normal) (h : roundsTo b k d) : ∃ n, neighbour? b k = some n := by
  obtain ⟨low, high⟩ := scaled_bounds b k
  have place : (0 : ℚ) < 10 ^ k := zpow_pos (by norm_num) k
  have near := (roundsTo_iff normal).1 h
  have one : roundsTo b k (b.scaled k / b.one k) ∨ roundsTo b k (b.scaled k / b.one k + 1) := by
    rw [roundsTo_iff normal, roundsTo_iff normal]
    rcases Nat.lt_or_ge (b.scaled k / b.one k) d with above | under
    · have le : ((b.scaled k / b.one k + 1 : Nat) : ℚ) ≤ d := by exact_mod_cast above
      exact .inr (near.between (.inr ⟨high, mul_le_mul_of_nonneg_right le place.le⟩))
    · have le : (d : ℚ) ≤ (b.scaled k / b.one k : Nat) := by exact_mod_cast under
      exact .inl (near.between (.inl ⟨mul_le_mul_of_nonneg_right le place.le, low⟩))
  simp only [neighbour?]
  split
  · split <;> exact ⟨_, rfl⟩
  · exact ⟨_, rfl⟩
  · exact ⟨_, rfl⟩
  · rename_i first second
    rw [first, second] at one
    simp at one

theorem roundsTo_of_neighbour (h : neighbour? b k = some d) : roundsTo b k d := by
  simp only [neighbour?] at h
  split at h
  · rename_i first second
    split at h <;> cases h <;> assumption
  · rename_i first _
    cases h
    exact first
  · rename_i _ second
    cases h
    exact second
  · contradiction

/-- The search ends no later than at a grid with a decimal that rounds to the float. -/
theorem firstHit_of_roundsTo (normal : b.Normal) {start : Int} {steps : Nat} (before : k ≤ start)
    (within : start < k + steps) (h : roundsTo b k d) :
    roundsTo b (firstHit b start steps).exponent (firstHit b start steps).digits ∧
      k ≤ (firstHit b start steps).exponent := by
  induction steps generalizing start with
  | zero => omega
  | succ steps ih =>
    cases found : neighbour? b start with
    | some n =>
      simp only [firstHit, found]
      exact ⟨roundsTo_of_neighbour found, before⟩
    | none =>
      have later : k ≤ start - 1 := by
        by_contra! last
        obtain rfl : k = start := by omega
        obtain ⟨n, hit⟩ := exists_neighbour normal h
        cases found.symm.trans hit
      simp only [firstHit, found]
      exact ih later (by omega)

end

/-! ### The start of the search -/

theorem powerAbove_bounds {s : Int} (low : -70 ≤ s) (high : s < 52) :
    (2 : ℚ) ^ s ≤ 10 ^ (s * 1233 / 4096 + 2) ∧ (10 : ℚ) ^ (s * 1233 / 4096 - 4) ≤ 2 ^ (s - 2) := by
  have each : ∀ t : Fin 122, (2 : ℚ) ^ ((t : Int) - 70) ≤ 10 ^ (((t : Int) - 70) * 1233 / 4096 + 2) ∧
      (10 : ℚ) ^ (((t : Int) - 70) * 1233 / 4096 - 4) ≤ 2 ^ ((t : Int) - 70 - 2) := by
    decide +kernel
  have moved : ((s + 70).toNat : Int) - 70 = s := by omega
  have at_s := each ⟨(s + 70).toNat, by omega⟩
  rwa [moved] at at_s

/-- A number of few digits that are not far behind the point. -/
structure Few (n : Nat) (k : Int) : Prop where
  some : n ≠ 0
  digits : n < 10 ^ 15
  place : -21 ≤ k
  small : n * (10 : ℚ) ^ k < 10 ^ 15

section

variable {b : Binary} {n : Nat} {k : Int}

theorem Few.place_lt (h : Few n k) : k < 15 := by
  have one : (1 : ℚ) ≤ n := by exact_mod_cast Nat.pos_of_ne_zero h.some
  have place : (0 : ℚ) < 10 ^ k := zpow_pos (by norm_num) k
  have small : (10 : ℚ) ^ k < 10 ^ (15 : Int) := by
    refine lt_of_le_of_lt ?_ h.small
    nlinarith
  exact (zpow_lt_zpow_iff_right₀ (by norm_num)).1 small

/-- The search starts above the place of the last digit, and comes to it. -/
theorem Few.within (h : Few n k) (near : Nearest (n * 10 ^ k) b) :
    k ≤ b.powerAbove ∧ b.powerAbove < k + 21 := by
  have width : b.mantissa.log2 = 52 := log2_mantissa near.normal
  have one : (1 : ℚ) ≤ n := by exact_mod_cast Nat.pos_of_ne_zero h.some
  have place : (0 : ℚ) < 10 ^ k := zpow_pos (by norm_num) k
  obtain ⟨above, under⟩ := near.range
  have first : (10 : ℚ) ^ k ≤ n * 10 ^ k := le_mul_of_one_le_left place.le one
  have digits : n * (10 : ℚ) ^ k < 10 ^ (15 + k) := by
    have few : (n : ℚ) < 10 ^ 15 := by exact_mod_cast h.digits
    rw [zpow_add₀ (by norm_num)]
    exact mul_lt_mul_of_pos_right few place
  have low : -70 ≤ b.exponent + 53 := by
    have least : (10 : ℚ) ^ (-21 : Int) ≤ 10 ^ k := zpow_le_zpow_right₀ (by norm_num) h.place
    have edge : (2 : ℚ) ^ (-70 : Int) < 10 ^ (-21 : Int) := by norm_num
    have power : (2 : ℚ) ^ (-70 : Int) < 2 ^ (b.exponent + 53) := by linarith
    exact ((zpow_lt_zpow_iff_right₀ (by norm_num)).1 power).le
  have high : b.exponent + 53 < 52 := by
    have edge : (10 : ℚ) ^ 15 < 2 ^ (50 : Int) := by norm_num
    have power : (2 : ℚ) ^ (b.exponent + 51) < 2 ^ (50 : Int) := by linarith [h.small]
    have less := (zpow_lt_zpow_iff_right₀ (by norm_num)).1 power
    omega
  obtain ⟨upper, lower⟩ := powerAbove_bounds low high
  rw [show b.exponent + 53 - 2 = b.exponent + 51 by ring] at lower
  have start : b.powerAbove = (b.exponent + 53) * 1233 / 4096 + 2 := by
    rw [powerAbove, width]
    congr 3
    push_cast
    ring
  have before : (10 : ℚ) ^ k < 10 ^ ((b.exponent + 53) * 1233 / 4096 + 2) := by linarith
  have after : (10 : ℚ) ^ ((b.exponent + 53) * 1233 / 4096 - 4) < 10 ^ (15 + k) := by linarith
  have before := (zpow_lt_zpow_iff_right₀ (by norm_num)).1 before
  have after := (zpow_lt_zpow_iff_right₀ (by norm_num)).1 after
  omega

/-- The shortest decimal of a float that is nearest to one of few digits has no more digits. -/
theorem Few.shortest (h : Few n k) (near : Nearest (n * 10 ^ k) b) {x : Float} (same : ofFloat x = b) :
    Nearest ((shortest x).digits * 10 ^ (shortest x).exponent) b ∧ k ≤ (shortest x).exponent := by
  obtain ⟨before, within⟩ := h.within near
  have some := near.normal.canonical.some_bit
  have hit := firstHit_of_roundsTo near.normal before within ((roundsTo_iff near.normal).2 near)
  rw [roundsTo_iff near.normal] at hit
  have found : Decimal.shortest x = firstHit b b.powerAbove 21 := by
    rw [Decimal.shortest, same]
    exact if_neg (Nat.ne_of_gt some)
  rwa [found]

end

/-! ### Digits filled up with zeros -/

/-- Numbers that round to the same float are about as great. -/
theorem le_of_nearest {q r : ℚ} {b : Binary} (hq : Nearest q b) (hr : Nearest r b) : r ≤ 10 / 9 * q := by
  have leads : (2 : ℚ) ^ 52 ≤ b.mantissa := by exact_mod_cast hq.normal.mantissa.1
  have step : (0 : ℚ) < 2 ^ b.exponent := zpow_pos (by norm_num) _
  have half := (below_pos b).2
  calc r ≤ (b.mantissa + 1 / 2) * 2 ^ b.exponent := hr.greatest
    _ ≤ 10 / 9 * (b.mantissa - b.below) * 2 ^ b.exponent :=
      mul_le_mul_of_nonneg_right (by linarith) step.le
    _ = 10 / 9 * ((b.mantissa - b.below) * 2 ^ b.exponent) := mul_assoc _ _ _
    _ ≤ 10 / 9 * q := mul_le_mul_of_nonneg_left hq.least (by norm_num)

section

variable {b : Binary} {n d : Nat} {k place : Int} (h : Few n place) (near : Nearest (n * 10 ^ place) b)
  (other : Nearest (d * 10 ^ k) b) (coarser : place ≤ k)
include h near other

theorem Few.some_digit : d ≠ 0 := by
  rintro rfl
  have below := le_of_nearest other near
  rw [Nat.cast_zero, zero_mul, mul_zero] at below
  have positive : (0 : ℚ) < n * 10 ^ place :=
    mul_pos (by exact_mod_cast Nat.pos_of_ne_zero h.some) (zpow_pos (by norm_num) _)
  linarith

theorem Few.whole_lt : 9 * (d * (10 : ℚ) ^ k) < 10 ^ 16 := by
  have same := le_of_nearest near other
  have small := h.small
  linarith

theorem Few.place_le : k ≤ 15 := by
  have one : (1 : ℚ) ≤ d := by exact_mod_cast Nat.pos_of_ne_zero (h.some_digit near other)
  have power : (0 : ℚ) < 10 ^ k := zpow_pos (by norm_num) k
  have whole := h.whole_lt near other
  have small : (10 : ℚ) ^ k < 10 ^ (16 : Int) := by
    rw [show (10 : ℚ) ^ (16 : Int) = 10 ^ 16 from zpow_natCast _ 16]
    nlinarith
  exact Int.le_of_lt_add_one ((zpow_lt_zpow_iff_right₀ (by norm_num)).1 small)

include coarser

theorem Few.digits_lt : 9 * d < 10 ^ 16 := by
  have power : (0 : ℚ) < 10 ^ k := zpow_pos (by norm_num) k
  have few : (n : ℚ) < 10 ^ 15 := by exact_mod_cast h.digits
  have finer : (10 : ℚ) ^ place ≤ 10 ^ k := zpow_le_zpow_right₀ (by norm_num) coarser
  have bound : (d : ℚ) * 10 ^ k ≤ 10 / 9 * n * 10 ^ k := by
    calc (d : ℚ) * 10 ^ k ≤ 10 / 9 * (n * 10 ^ place) := le_of_nearest near other
      _ ≤ 10 / 9 * (n * 10 ^ k) := by gcongr
      _ = 10 / 9 * n * 10 ^ k := (mul_assoc _ _ _).symm
  have digits : (d : ℚ) ≤ 10 / 9 * n := le_of_mul_le_mul_right bound power
  have small : 9 * (d : ℚ) < 10 ^ 16 := by linarith
  exact_mod_cast small

/-- With a zero more than make it a whole number, the decimal still fits a float. -/
theorem Few.filled {places : Nat} (short : (places : Int) ≤ max 1 (k + 1)) :
    Fits (d * 10 ^ places) ∧ d * 10 ^ places < 10 ^ 18 := by
  have few := h.digits_lt near other coarser
  cases places with
  | zero => exact ⟨.of_lt (by omega), by omega⟩
  | succ places =>
    have whole : 9 * (d * 10 ^ places) < 10 ^ 16 := by
      rcases Int.le_total k 0 with behind | before
      · obtain rfl : places = 0 := by omega
        rwa [pow_zero, Nat.mul_one]
      · have bound := h.whole_lt near other
        obtain ⟨k, rfl⟩ := Int.eq_ofNat_of_zero_le before
        have fewer : d * 10 ^ places ≤ d * 10 ^ k :=
          Nat.mul_le_mul_left d (Nat.pow_le_pow_right (by decide) (by omega))
        have bound : 9 * (d * 10 ^ k) < 10 ^ 16 := by exact_mod_cast bound
        omega
    have halves : d * 10 ^ (places + 1) = 5 * (d * 10 ^ places) * 2 ^ 1 := by
      rw [pow_succ]
      ring
    exact ⟨⟨5 * (d * 10 ^ places), 1, by omega, halves⟩, by omega⟩

end

end JsonTree.Decimal
