import JsonTree.Proofs.Writing
import Mathlib

/-!
Floats as they are kept. The bits of a finite float hold a sign, a mantissa and an exponent, and taking
them apart and putting them together again loses nothing.
-/
namespace JsonTree.Binary

open Float.Model Float.Model.UnpackedFloat

/-! ### Fields of bits -/

theorem toNat_packComponents (s : UnpackedFloat.Sign) (e : BitVec 11) (m : BitVec 52) :
    (packComponents Format.binary64 s e m).toNat =
      s.toBitVec.toNat * 2 ^ 63 + e.toNat * 2 ^ 52 + m.toNat := by
  rw [packComponents, BitVec.toNat_append, BitVec.toNat_append,
    ← Nat.shiftLeft_add_eq_or_of_lt m.isLt, ← Nat.shiftLeft_add_eq_or_of_lt e.isLt,
    Nat.shiftLeft_eq, Nat.shiftLeft_eq]
  ring

section

variable {b : BitVec Format.binary64.numBits}

theorem toNat_unpackMantissa : (unpackMantissa b).toNat = b.toNat % 2 ^ 52 := by
  simp [unpackMantissa]

theorem toNat_unpackExponent : (unpackExponent b).toNat = b.toNat / 2 ^ 52 % 2 ^ 11 := by
  simp [unpackExponent, Nat.shiftRight_eq_div_pow]

theorem ofBitVec_unpackSign : UnpackedFloat.Sign.ofBitVec (unpackSign b) =
    if 2 ^ 63 ≤ b.toNat then .negative else .positive := by
  have bits : b.toNat < 2 ^ 64 := b.isLt
  have sign : (unpackSign b).toNat = b.toNat / 2 ^ 63 := by
    simp only [unpackSign, BitVec.toNat_cast, BitVec.extractLsb_toNat, Nat.shiftRight_eq_div_pow]
    omega
  have positive : unpackSign b = 0#1 ↔ ¬ 2 ^ 63 ≤ b.toNat := by
    rw [← BitVec.toNat_inj, sign]
    change b.toNat / 2 ^ 63 = 0 ↔ _
    omega
  by_cases negative : 2 ^ 63 ≤ b.toNat
  · rw [if_pos negative]
    exact if_neg fun zero => positive.1 zero negative
  · rw [if_neg negative]
    exact if_pos (positive.2 negative)

theorem unpackExponent_eq_zero_iff : unpackExponent b = 0#11 ↔ b.toNat / 2 ^ 52 % 2 ^ 11 = 0 := by
  rw [← BitVec.toNat_inj, toNat_unpackExponent]
  rfl

theorem unpackExponent_eq_ones_iff :
    unpackExponent b = -1#11 ↔ b.toNat / 2 ^ 52 % 2 ^ 11 = 2047 := by
  rw [← BitVec.toNat_inj, toNat_unpackExponent]
  rfl

theorem unpackMantissa_eq_zero_iff : unpackMantissa b = 0#52 ↔ b.toNat % 2 ^ 52 = 0 := by
  rw [← BitVec.toNat_inj, toNat_unpackMantissa]
  rfl

theorem toNat_leading : (1#1 ++ unpackMantissa b).toNat = 2 ^ 52 + b.toNat % 2 ^ 52 := by
  have low : (unpackMantissa b).toNat < 2 ^ 52 := (unpackMantissa b).isLt
  rw [BitVec.toNat_append, ← Nat.shiftLeft_add_eq_or_of_lt low, toNat_unpackMantissa]
  rfl

end

/-- The sign that a float is kept with. -/
def sign (x : Float) : UnpackedFloat.Sign :=
  if FloatText.isNegative x then .negative else .positive

/-- The bits of a float that tell its exponent. -/
def field (x : Float) : Nat := x.toBits.toNat / 2 ^ 52 % 2 ^ 11

theorem ofFloat_eq (x : Float) : ofFloat x =
    if field x = 0 then ⟨x.toBits.toNat % 2 ^ 52, -1074⟩
    else ⟨2 ^ 52 + x.toBits.toNat % 2 ^ 52, (field x : Int) - 1075⟩ :=
  rfl

theorem finite_congr {s : UnpackedFloat.Sign} {m n : Nat} {e f : Int} {some : 0 < m} {other : 0 < n}
    (mantissa : m = n) (exponent : e = f) : finite s m e some = finite s n f other := by
  cases mantissa
  cases exponent
  rfl

/-- The parts of a float that is finite are its exact value. -/
theorem unpack_of_field {x : Float} (h : field x ≠ 2047) : x.toModel.unpack =
    if some : 0 < (ofFloat x).mantissa then
      .finite (sign x) (ofFloat x).mantissa (ofFloat x).exponent some
    else .zero (sign x) := by
  have sign : _ = sign x := (ofBitVec_unpackSign (b := x.toBits.toBitVec)).trans
    (by simp [sign, FloatText.isNegative])
  have bias : (Format.binary64.exponentBias : Int) = 1023 := rfl
  change UnpackedFloat.unpack Format.binary64 x.toBits.toBitVec = _
  unfold UnpackedFloat.unpack
  rw [if_neg (mt unpackExponent_eq_ones_iff.1 h), sign]
  by_cases zero : field x = 0
  · have parts : ofFloat x = ⟨x.toBits.toNat % 2 ^ 52, -1074⟩ := by rw [ofFloat_eq, if_pos zero]
    have exponent := unpackExponent_eq_zero_iff.2 zero
    rw [if_pos exponent]
    by_cases none_set : x.toBits.toNat % 2 ^ 52 = 0
    · rw [dif_pos (unpackMantissa_eq_zero_iff.2 none_set), dif_neg]
      rw [parts]
      exact Nat.not_lt_of_le (Nat.le_of_eq none_set)
    · rw [dif_neg (mt unpackMantissa_eq_zero_iff.1 none_set), dif_pos]
      · refine finite_congr ?_ ?_
        · rw [toNat_unpackMantissa, parts]
          rfl
        · rw [exponent, parts, bias]
          rfl
      · rw [parts]
        exact Nat.pos_of_ne_zero none_set
  · have parts : ofFloat x = ⟨2 ^ 52 + x.toBits.toNat % 2 ^ 52, (field x : Int) - 1075⟩ := by
      rw [ofFloat_eq, if_neg zero]
    rw [if_neg (mt unpackExponent_eq_zero_iff.1 zero), dif_pos]
    · refine finite_congr ?_ ?_
      · rw [toNat_leading, parts]
        rfl
      · rw [toNat_unpackExponent, parts, bias]
        rfl
    · rw [parts]
      exact Nat.lt_of_lt_of_le (by decide) (Nat.le_add_right _ _)

theorem isFinite_iff {x : Float} : x.isFinite ↔ field x ≠ 2047 := by
  change x.toModel.unpack.isFinite ↔ _
  constructor
  · intro finite infinite
    revert finite
    change ¬ (UnpackedFloat.unpack Format.binary64 x.toBits.toBitVec).isFinite
    unfold UnpackedFloat.unpack
    rw [if_pos (unpackExponent_eq_ones_iff.2 infinite)]
    split <;> exact Bool.false_ne_true
  · intro h
    rw [unpack_of_field h]
    split <;> rfl

/-! ### Canonical form -/

/-- The form in which a float other than zero is kept: with a leading bit, or the least exponent. -/
structure Canonical (b : Binary) : Prop where
  some_bit : 0 < b.mantissa
  mantissa : b.mantissa < 2 ^ 53
  exponent : -1074 ≤ b.exponent ∧ b.exponent ≤ 971
  leading : 2 ^ 52 ≤ b.mantissa ∨ b.exponent = -1074

theorem canonical_ofFloat {x : Float} (finite : field x ≠ 2047) (some_bit : 0 < (ofFloat x).mantissa) :
    (ofFloat x).Canonical := by
  have fraction : x.toBits.toNat % 2 ^ 52 < 2 ^ 52 := Nat.mod_lt _ (by decide)
  have low : field x < 2 ^ 11 := Nat.mod_lt _ (by decide)
  rw [ofFloat_eq] at some_bit ⊢
  split at some_bit
  · rename_i zero
    rw [if_pos zero]
    have least : (-1074 : Int) ≤ 971 := by decide
    exact ⟨some_bit, Nat.lt_trans fraction (by decide), ⟨le_rfl, least⟩, .inr rfl⟩
  · rename_i filled
    rw [if_neg filled]
    refine ⟨some_bit, ?_, ?_, .inl (Nat.le_add_right _ _)⟩
    · change 2 ^ 52 + _ < 2 ^ 53
      omega
    · change -1074 ≤ (field x : Int) - 1075 ∧ (field x : Int) - 1075 ≤ 971
      omega

/-- The float of a sign and a magnitude. -/
def float (s : UnpackedFloat.Sign) (b : Binary) (c : b.Canonical) : Float :=
  .ofModel (.pack (.finite s b.mantissa b.exponent c.some_bit))

section

variable {b : Binary} (c : b.Canonical) (s : UnpackedFloat.Sign)

omit c in
theorem pack_finite (some_bit : 0 < b.mantissa) :
    UnpackedFloat.pack Format.binary64 (.finite s b.mantissa b.exponent some_bit) =
      if 2 ^ 11 ≤ (b.exponent + 1023 + 52).toNat + 1 then packedInfinity Format.binary64 s
      else if b.mantissa.log2 + 1 = 53 then
        packComponents Format.binary64 s (.ofNat 11 (b.exponent + 1023 + 52).toNat)
          (.ofNat 52 b.mantissa)
      else packComponents Format.binary64 s 0#11 (.ofNat 52 b.mantissa) :=
  rfl

theorem toBits_float : (float s b c).toBits.toNat = s.toBitVec.toNat * 2 ^ 63 +
    (if 2 ^ 52 ≤ b.mantissa then (b.exponent + 1075).toNat else 0) * 2 ^ 52 +
      b.mantissa % 2 ^ 52 := by
  obtain ⟨some_bit, mantissa, ⟨low, high⟩, leading⟩ := id c
  have bits : b.mantissa.log2 < 53 := (Nat.log2_lt (Nat.ne_of_gt some_bit)).2 mantissa
  have normal : b.mantissa.log2 + 1 = 53 ↔ 2 ^ 52 ≤ b.mantissa := by
    have least := Nat.le_log2 (k := 52) (Nat.ne_of_gt some_bit)
    omega
  change (UnpackedFloat.pack Format.binary64 (.finite s b.mantissa b.exponent some_bit)).toNat = _
  rw [pack_finite, if_neg (by omega)]
  by_cases leads : 2 ^ 52 ≤ b.mantissa
  · rw [if_pos (normal.2 leads), if_pos leads, toNat_packComponents, BitVec.toNat_ofNat,
      BitVec.toNat_ofNat]
    omega
  · rw [if_neg (mt normal.1 leads), if_neg leads, toNat_packComponents, BitVec.toNat_ofNat]
    rfl

omit c in
theorem toBitVec_lt : s.toBitVec.toNat < 2 := s.toBitVec.isLt

theorem field_float : field (float s b c) =
    if 2 ^ 52 ≤ b.mantissa then (b.exponent + 1075).toNat else 0 := by
  have bits := toBits_float c s
  have sign := toBitVec_lt s
  have exponent := c.exponent
  rw [field, bits]
  split <;> omega

theorem ofFloat_float : ofFloat (float s b c) = b := by
  have fraction : (float s b c).toBits.toNat % 2 ^ 52 = b.mantissa % 2 ^ 52 := by
    have bits := toBits_float c s
    omega
  have mantissa := c.mantissa
  have exponent := c.exponent
  have leading := c.leading
  rw [ofFloat_eq, field_float, fraction]
  by_cases leads : 2 ^ 52 ≤ b.mantissa
  · rw [if_pos leads, if_neg (by omega)]
    congr 1 <;> omega
  · rw [if_neg leads, if_pos rfl]
    congr 1 <;> omega

theorem sign_float : sign (float s b c) = s := by
  have bits := toBits_float c s
  have exponent := c.exponent
  have low : b.mantissa % 2 ^ 52 < 2 ^ 52 := Nat.mod_lt _ (by decide)
  have fields : (if 2 ^ 52 ≤ b.mantissa then (b.exponent + 1075).toNat else 0) ≤ 2046 := by
    split <;> omega
  have power : Nat.pow 2 63 = 2 ^ 63 := rfl
  cases s with
  | negative =>
    have one : UnpackedFloat.Sign.negative.toBitVec.toNat = 1 := rfl
    exact if_pos (decide_eq_true (by omega))
  | positive =>
    have zero : UnpackedFloat.Sign.positive.toBitVec.toNat = 0 := rfl
    exact if_neg (mt of_decide_eq_true (by omega))

theorem finite_float : field (float s b c) ≠ 2047 := by
  have exponent := c.exponent
  rw [field_float]
  split <;> omega

theorem unpack_float : (float s b c).toModel.unpack = .finite s b.mantissa b.exponent c.some_bit := by
  rw [unpack_of_field (finite_float c s), dif_pos (by rw [ofFloat_float]; exact c.some_bit)]
  rw [sign_float]
  exact finite_congr (by rw [ofFloat_float]) (by rw [ofFloat_float])

end

theorem float_ofFloat {x : Float} (finite : field x ≠ 2047) (some_bit : 0 < (ofFloat x).mantissa) :
    float (sign x) (ofFloat x) (canonical_ofFloat finite some_bit) = x := by
  have parts := unpack_of_field finite
  have whole := pack_unpack_of_valid x.toModel.valid
  rw [dif_pos some_bit] at parts
  change UnpackedFloat.pack Format.binary64 x.toModel.unpack = _ at whole
  rw [parts] at whole
  exact Float.toBits_inj.1 (UInt64.toBitVec_inj.1 whole)

theorem neg_float {b : Binary} (c : b.Canonical) (s : UnpackedFloat.Sign) :
    -float s b c = float (-s) b c := by
  change Float.ofModel (.pack (float s b c).toModel.unpack.neg) = _
  rw [unpack_float]
  rfl

theorem isFinite_neg {x : Float} (finite : x.isFinite) : (-x).isFinite := by
  have given := isFinite_iff.1 finite
  by_cases some_bit : 0 < (ofFloat x).mantissa
  · rw [← float_ofFloat given some_bit, neg_float, isFinite_iff]
    exact finite_float _ _
  · have zero : x.toModel.unpack = .zero (sign x) := by rw [unpack_of_field given, dif_neg some_bit]
    change (Float.Model.pack x.toModel.unpack.neg).unpack.isFinite
    rw [zero]
    cases sign x <;> rfl

theorem isFinite_of_neg {x : Float} (finite : (-x).isFinite) : x.isFinite := by
  change (Float.Model.pack x.toModel.unpack.neg).unpack.isFinite at finite
  change x.toModel.unpack.isFinite
  cases unpacked : x.toModel.unpack with
  | zero | finite => rfl
  | infinity s =>
    rw [unpacked] at finite
    cases s <;> cases finite
  | notANumber =>
    rw [unpacked] at finite
    cases finite

end JsonTree.Binary
