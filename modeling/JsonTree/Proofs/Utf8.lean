import JsonTree.Text.Utf8
import Mathlib.Algebra.Group.Nat.Defs

/-!
Text as UTF-8. The bytes of a character are one of the sequences that the check of raw bytes knows,
so the bytes of a text are valid throughout, and they read back as the text.
-/
namespace JsonTree.Utf8

/-- The bytes that one character can take. -/
inductive Sequence : List UInt8 → Prop where
  | one {a : UInt8} : a ≤ 0x7F → Sequence [a]
  | two {a b : UInt8} : 0xC2 ≤ a → a ≤ 0xDF → isTrailing b → Sequence [a, b]
  | three {a b c : UInt8} : 0xE0 ≤ a → a ≤ 0xEF → isSecondOfThree a b → isTrailing c →
      Sequence [a, b, c]
  | four {a b c d : UInt8} : 0xF0 ≤ a → a ≤ 0xF4 → isSecondOfFour a b → isTrailing c →
      isTrailing d → Sequence [a, b, c, d]

theorem validFrom_sequence {t : List UInt8} (h : Sequence t) (passed : Nat) (rest : List UInt8) :
    validFrom passed (t ++ rest) = validFrom (passed + t.length) rest := by
  cases h with
  | one low =>
    rw [List.singleton_append, validFrom.eq_def]
    simp [low]
  | two low high trailing =>
    have above : ¬ _ ≤ (0x7F : UInt8) := fun h => absurd (UInt8.le_trans low h) (by decide)
    rw [List.cons_append, List.singleton_append, validFrom.eq_def]
    simp [above, low, high, trailing]
  | three low high second trailing =>
    have above : ¬ _ ≤ (0x7F : UInt8) := fun h => absurd (UInt8.le_trans low h) (by decide)
    have other : ¬ _ ≤ (0xDF : UInt8) := fun h => absurd (UInt8.le_trans low h) (by decide)
    rw [List.cons_append, List.cons_append, List.singleton_append, validFrom.eq_def]
    simp [above, other, low, high, second, trailing]
  | four low high second trailing last =>
    have above : ¬ _ ≤ (0x7F : UInt8) := fun h => absurd (UInt8.le_trans low h) (by decide)
    have other : ¬ _ ≤ (0xDF : UInt8) := fun h => absurd (UInt8.le_trans low h) (by decide)
    have another : ¬ _ ≤ (0xEF : UInt8) := fun h => absurd (UInt8.le_trans low h) (by decide)
    rw [List.cons_append, List.cons_append, List.cons_append, List.singleton_append,
      validFrom.eq_def]
    simp [above, other, another, low, high, second, trailing, last]

theorem le_ofNat {least : UInt8} {n : Nat} (low : least.toNat ≤ n) (high : n < 0x100) :
    least ≤ UInt8.ofNat n := by
  rwa [UInt8.le_iff_toNat_le, UInt8.toNat_ofNat', Nat.mod_eq_of_lt high]

theorem ofNat_le {greatest : UInt8} {n : Nat} (high : n ≤ greatest.toNat) :
    UInt8.ofNat n ≤ greatest := by
  rw [UInt8.le_iff_toNat_le, UInt8.toNat_ofNat']
  exact Nat.le_trans (Nat.mod_le _ _) high

theorem isTrailing_ofNat (n : Nat) : isTrailing (UInt8.ofNat (n % 64 + 0x80)) := by
  rw [isTrailing, Bool.and_eq_true, decide_eq_true_eq, decide_eq_true_eq]
  constructor
  · apply le_ofNat
    · exact Nat.le_add_left _ _
    · omega
  · apply ofNat_le
    change _ ≤ 0xBF
    omega

theorem isSecondOfThree_ofNat {v : Nat} (low : 0x7FF < v) (high : v ≤ 0xFFFF)
    (scalar : v < 0xD800 ∨ 0xDFFF < v) :
    isSecondOfThree (UInt8.ofNat (v / 4096 % 16 + 0xE0)) (UInt8.ofNat (v / 64 % 64 + 0x80)) := by
  unfold isSecondOfThree
  split
  · simp_all [UInt8.le_iff_toNat_le, ← UInt8.toNat_inj]
    omega
  · split
    · simp_all [UInt8.le_iff_toNat_le, ← UInt8.toNat_inj]
      omega
    · exact isTrailing_ofNat (v / 64)

theorem isSecondOfFour_ofNat {v : Nat} (low : 0xFFFF < v) (high : v < 0x110000) :
    isSecondOfFour (UInt8.ofNat (v / 262144 % 8 + 0xF0)) (UInt8.ofNat (v / 4096 % 64 + 0x80)) := by
  unfold isSecondOfFour
  split
  · simp_all [UInt8.le_iff_toNat_le, ← UInt8.toNat_inj]
    omega
  · split
    · simp_all [UInt8.le_iff_toNat_le, ← UInt8.toNat_inj]
      omega
    · exact isTrailing_ofNat (v / 4096)

theorem sequence_encodeChar (c : Char) : Sequence (String.utf8EncodeChar c) := by
  have scalar : c.val.toNat < 0xD800 ∨ 0xDFFF < c.val.toNat ∧ c.val.toNat < 0x110000 := c.valid
  simp only [String.utf8EncodeChar]
  generalize c.val.toNat = v at scalar
  split
  · exact .one (ofNat_le ‹_›)
  · split
    · refine .two (le_ofNat ?_ ?_) (ofNat_le ?_) (isTrailing_ofNat v)
      · change 0xC2 ≤ _
        omega
      · omega
      · change _ ≤ 0xDF
        omega
    · split
      · refine .three (le_ofNat ?_ ?_) (ofNat_le ?_) (isSecondOfThree_ofNat ?_ ‹_› ?_)
          (isTrailing_ofNat v)
        · exact Nat.le_add_left _ _
        · omega
        · change _ ≤ 0xEF
          omega
        · omega
        · omega
      · refine .four (le_ofNat ?_ ?_) (ofNat_le ?_) (isSecondOfFour_ofNat ?_ ?_)
          (isTrailing_ofNat (v / 64)) (isTrailing_ofNat v)
        · exact Nat.le_add_left _ _
        · omega
        · change _ ≤ 0xF4
          omega
        · omega
        · omega

/-- A byte stands for the character itself or has its high bit set. -/
theorem mem_encodeChar {c : Char} {b : UInt8} (h : b ∈ String.utf8EncodeChar c) :
    b.toNat = c.toNat ∨ 0x80 ≤ b.toNat := by
  rw [Char.toNat]
  simp only [String.utf8EncodeChar] at h
  generalize c.val.toNat = v at h ⊢
  split at h
  · rw [List.mem_singleton.1 h, UInt8.toNat_ofNat']
    omega
  · right
    split at h
    · simp only [List.mem_cons, List.not_mem_nil, or_false] at h
      rcases h with rfl | rfl <;> rw [UInt8.toNat_ofNat'] <;> omega
    · split at h
      · simp only [List.mem_cons, List.not_mem_nil, or_false] at h
        rcases h with rfl | rfl | rfl <;> rw [UInt8.toNat_ofNat'] <;> omega
      · simp only [List.mem_cons, List.not_mem_nil, or_false] at h
        rcases h with rfl | rfl | rfl | rfl <;> rw [UInt8.toNat_ofNat'] <;> omega

/-- A character that is not ASCII has no byte of one that is. -/
theorem ne_of_mem_encodeChar {c d : Char} {b : UInt8} (h : b ∈ String.utf8EncodeChar c)
    (low : d.toNat < 0x80) (other : c ≠ d) : b.toNat ≠ d.toNat := by
  intro same
  rcases mem_encodeChar h with apart | high
  · exact other (Char.toNat_inj.1 (apart.symm.trans same))
  · omega

theorem encodeChar_ascii {c : Char} (h : c.toNat < 0x80) :
    String.utf8EncodeChar c = [UInt8.ofNat c.toNat] := by
  have low : c.val.toNat ≤ 0x7F := Nat.le_of_lt_succ h
  simp only [String.utf8EncodeChar, if_pos low]
  rfl

/-- The bytes of a text are passed over, whatever follows them. -/
theorem validFrom_ofChars (text : List Char) (passed : Nat) (rest : List UInt8) :
    validFrom passed (ofChars text ++ rest) = validFrom (passed + (ofChars text).length) rest := by
  induction text generalizing passed with
  | nil => rfl
  | cons c text ih =>
    have first := validFrom_sequence (sequence_encodeChar c) passed (ofChars text ++ rest)
    rw [ofChars, List.flatMap_cons, List.append_assoc, List.length_append, ← Nat.add_assoc]
    exact first.trans (ih _)

theorem validLength_ofChars (text : List Char) : validLength (ofChars text) = (ofChars text).length := by
  have alone := validFrom_ofChars text 0 []
  rwa [List.append_nil, Nat.zero_add] at alone

theorem ofString_ofBytes {bytes : List UInt8} (ascii : ∀ b ∈ bytes, b < 0x80) :
    ofString (.ofList (bytes.map Char.ofUInt8)) = bytes := by
  rw [ofString, String.toList_ofList]
  induction bytes with
  | nil => rfl
  | cons b rest ih =>
    have low : (Char.ofUInt8 b).toNat < 0x80 := UInt8.lt_iff_toNat_lt.1 (ascii b (by simp))
    have same : UInt8.ofNat (Char.ofUInt8 b).toNat = b := UInt8.ofNat_toNat
    rw [List.map_cons, ofChars, List.flatMap_cons, encodeChar_ascii low, same]
    exact congrArg (b :: ·) (ih fun b hb => ascii b (by simp [hb]))

theorem ofChars_append (s t : List Char) : ofChars (s ++ t) = ofChars s ++ ofChars t :=
  List.flatMap_append

theorem ofChars_cons (c : Char) (t : List Char) :
    ofChars (c :: t) = String.utf8EncodeChar c ++ ofChars t :=
  List.flatMap_cons

theorem toByteArray_eq (s : String) : s.toByteArray = ⟨(ofString s).toArray⟩ := by
  apply ByteArray.ext
  rw [← String.utf8Encode_toList, List.utf8Encode, List.data_toByteArray]
  rfl

theorem fromUTF8?_ofString (s : String) : String.fromUTF8? ⟨(ofString s).toArray⟩ = some s := by
  rw [← toByteArray_eq, String.fromUTF8?, dif_pos s.isValidUTF8]
  rfl

theorem ofString_inj {s t : String} : ofString s = ofString t ↔ s = t := by
  rw [← String.toByteArray_inj, toByteArray_eq, toByteArray_eq]
  simp

theorem length_ofString (s : String) : (ofString s).length = s.utf8ByteSize := by
  rw [← String.size_toByteArray, toByteArray_eq]
  rfl

theorem eq_ofNat {b : UInt8} {n : Nat} (h : n = b.toNat) : UInt8.ofNat n = b := by
  rw [h, UInt8.ofNat_toNat]

theorem isTrailing_iff {b : UInt8} : isTrailing b ↔ 0x80 ≤ b.toNat ∧ b.toNat ≤ 0xBF := by
  rw [isTrailing, Bool.and_eq_true, decide_eq_true_eq, decide_eq_true_eq, UInt8.le_iff_toNat_le,
    UInt8.le_iff_toNat_le]
  rfl

theorem toNat_secondOfThree {a b : UInt8} (h : isSecondOfThree a b) :
    0x80 ≤ b.toNat ∧ b.toNat ≤ 0xBF ∧ (a.toNat = 0xE0 → 0xA0 ≤ b.toNat) ∧
      (a.toNat = 0xED → b.toNat ≤ 0x9F) := by
  unfold isSecondOfThree at h
  split at h
  · simp_all [UInt8.le_iff_toNat_le]
    omega
  · split at h
    · simp_all [UInt8.le_iff_toNat_le]
      omega
    · simp_all [isTrailing_iff, ← UInt8.toNat_inj]

theorem toNat_secondOfFour {a b : UInt8} (h : isSecondOfFour a b) :
    0x80 ≤ b.toNat ∧ b.toNat ≤ 0xBF ∧ (a.toNat = 0xF0 → 0x90 ≤ b.toNat) ∧
      (a.toNat = 0xF4 → b.toNat ≤ 0x8F) := by
  unfold isSecondOfFour at h
  split at h
  · simp_all [UInt8.le_iff_toNat_le]
    omega
  · split at h
    · simp_all [UInt8.le_iff_toNat_le]
      omega
    · simp_all [isTrailing_iff, ← UInt8.toNat_inj]

/-- The character with a number, if there is one, has the bytes that the number gives. -/
theorem exists_encodeChar {v : Nat} (scalar : v < 0xD800 ∨ 0xDFFF < v ∧ v < 0x110000) :
    ∃ c : Char, c.toNat = v ∧ String.utf8EncodeChar c =
      if v ≤ 0x7F then [UInt8.ofNat v]
      else if v ≤ 0x7FF then [UInt8.ofNat (v / 64 % 32 + 0xC0), UInt8.ofNat (v % 64 + 0x80)]
      else if v ≤ 0xFFFF then [UInt8.ofNat (v / 4096 % 16 + 0xE0),
        UInt8.ofNat (v / 64 % 64 + 0x80), UInt8.ofNat (v % 64 + 0x80)]
      else [UInt8.ofNat (v / 262144 % 8 + 0xF0), UInt8.ofNat (v / 4096 % 64 + 0x80),
        UInt8.ofNat (v / 64 % 64 + 0x80), UInt8.ofNat (v % 64 + 0x80)] := by
  have number : (Char.ofNat v).val.toNat = v := by
    rw [Char.ofNat, dif_pos scalar]
    rfl
  refine ⟨Char.ofNat v, number, ?_⟩
  simp only [String.utf8EncodeChar, number]

theorem Sequence.exists_char {t : List UInt8} (h : Sequence t) :
    ∃ c : Char, String.utf8EncodeChar c = t := by
  cases h with
  | @one a low =>
    have high : a.toNat ≤ 0x7F := UInt8.le_iff_toNat_le.1 low
    obtain ⟨c, -, bytes⟩ := exists_encodeChar (v := a.toNat) (by omega)
    refine ⟨c, bytes.trans ?_⟩
    rw [if_pos high, UInt8.ofNat_toNat]
  | @two a b low high trailing =>
    have low : 0xC2 ≤ a.toNat := UInt8.le_iff_toNat_le.1 low
    have high : a.toNat ≤ 0xDF := UInt8.le_iff_toNat_le.1 high
    have second := isTrailing_iff.1 trailing
    obtain ⟨c, -, bytes⟩ := exists_encodeChar
      (v := (a.toNat - 0xC0) * 64 + (b.toNat - 0x80)) (by omega)
    refine ⟨c, bytes.trans ?_⟩
    rw [if_neg (by omega), if_pos (by omega), eq_ofNat (b := a) (by omega),
      eq_ofNat (b := b) (by omega)]
  | @three a b d low high second trailing =>
    have low : 0xE0 ≤ a.toNat := UInt8.le_iff_toNat_le.1 low
    have high : a.toNat ≤ 0xEF := UInt8.le_iff_toNat_le.1 high
    have second := toNat_secondOfThree second
    have third := isTrailing_iff.1 trailing
    obtain ⟨c, -, bytes⟩ := exists_encodeChar
      (v := (a.toNat - 0xE0) * 4096 + (b.toNat - 0x80) * 64 + (d.toNat - 0x80)) (by omega)
    refine ⟨c, bytes.trans ?_⟩
    rw [if_neg (by omega), if_neg (by omega), if_pos (by omega), eq_ofNat (b := a) (by omega),
      eq_ofNat (b := b) (by omega), eq_ofNat (b := d) (by omega)]
  | @four a b d e low high second trailing last =>
    have low : 0xF0 ≤ a.toNat := UInt8.le_iff_toNat_le.1 low
    have high : a.toNat ≤ 0xF4 := UInt8.le_iff_toNat_le.1 high
    have second := toNat_secondOfFour second
    have third := isTrailing_iff.1 trailing
    have fourth := isTrailing_iff.1 last
    obtain ⟨c, -, bytes⟩ := exists_encodeChar
      (v := (a.toNat - 0xF0) * 262144 + (b.toNat - 0x80) * 4096 + (d.toNat - 0x80) * 64 +
        (e.toNat - 0x80)) (by omega)
    refine ⟨c, bytes.trans ?_⟩
    rw [if_neg (by omega), if_neg (by omega), if_neg (by omega), eq_ofNat (b := a) (by omega),
      eq_ofNat (b := b) (by omega), eq_ofNat (b := d) (by omega), eq_ofNat (b := e) (by omega)]

theorem le_validFrom (passed : Nat) (bytes : List UInt8) : passed ≤ validFrom passed bytes := by
  fun_induction validFrom passed bytes <;> omega

/-- A sequence that is passed over is the first character of the text before the stop. -/
theorem stop_of_sequence {t rest : List UInt8} {passed n : Nat} (h : Sequence t)
    (later : ∃ text left, rest = ofChars text ++ left ∧ n = passed + t.length + (ofChars text).length) :
    ∃ text left, t ++ rest = ofChars text ++ left ∧ n = passed + (ofChars text).length := by
  obtain ⟨c, rfl⟩ := h.exists_char
  obtain ⟨text, left, rfl, place⟩ := later
  refine ⟨c :: text, left, ?_, ?_⟩
  · rw [ofChars_cons, List.append_assoc]
  · rw [place, ofChars_cons, List.length_append, Nat.add_assoc]

/-- The check stops behind a text. -/
theorem validFrom_stop (passed : Nat) (bytes : List UInt8) : ∃ text left,
    bytes = ofChars text ++ left ∧ validFrom passed bytes = passed + (ofChars text).length := by
  fun_induction validFrom passed bytes with
  | case2 passed b rest low ih => exact stop_of_sequence (.one low) ih
  | case4 passed b high c rest two trailing ih =>
    simp only [Bool.and_eq_true, decide_eq_true_eq] at two
    exact stop_of_sequence (t := [b, c]) (.two two.1 two.2 trailing) ih
  | case7 passed b high c other d rest three following ih =>
    simp only [Bool.and_eq_true, decide_eq_true_eq] at three following
    exact stop_of_sequence (t := [b, c, d])
      (.three three.1 three.2 following.1 following.2) ih
  | case10 passed b high c other d another e rest four ih =>
    simp only [Bool.and_eq_true, decide_eq_true_eq] at four
    obtain ⟨⟨⟨⟨low, high⟩, second⟩, third⟩, fourth⟩ := four
    exact stop_of_sequence (t := [b, c, d, e]) (.four low high second third fourth) ih
  | _ => exact ⟨[], _, rfl, rfl⟩

/-- The check stops behind the longest text that the bytes begin with. -/
theorem validLength_longest (bytes : List UInt8) : ∃ text left,
    bytes = ofChars text ++ left ∧ validLength bytes = (ofChars text).length ∧
      ∀ other more, bytes = ofChars other ++ more → (ofChars other).length ≤ validLength bytes := by
  obtain ⟨text, left, parts, place⟩ := validFrom_stop 0 bytes
  refine ⟨text, left, parts, place.trans (Nat.zero_add _), ?_⟩
  rintro other more rfl
  rw [validLength, validFrom_ofChars, Nat.zero_add]
  exact le_validFrom _ more

theorem validLength_le (bytes : List UInt8) : validLength bytes ≤ bytes.length := by
  obtain ⟨text, left, parts, place, -⟩ := validLength_longest bytes
  rw [place, parts, List.length_append]
  exact Nat.le_add_right _ _

theorem validLength_eq_length_iff {bytes : List UInt8} :
    validLength bytes = bytes.length ↔ ∃ text, bytes = ofChars text := by
  constructor
  · intro h
    obtain ⟨text, left, parts, place, -⟩ := validLength_longest bytes
    rw [h, parts, List.length_append, Nat.add_eq_left, List.length_eq_zero_iff] at place
    exact ⟨text, by rw [parts, place, List.append_nil]⟩
  · rintro ⟨text, rfl⟩
    exact validLength_ofChars text

theorem tagged_eq {tag : UInt8} {bits : UInt32} {limit : Nat}
    (each : ∀ n : Fin limit, tagged tag (.ofNat n) = UInt8.ofNat (n + tag.toNat))
    (small : bits.toNat < limit) : tagged tag bits = UInt8.ofNat (bits.toNat + tag.toNat) := by
  have same := each ⟨bits.toNat, small⟩
  rwa [UInt32.ofNat_toNat] at same

theorem tagged_trailing (c : UInt32) : tagged 0x80 (c &&& 0x3F) = UInt8.ofNat (c.toNat % 64 + 0x80) := by
  have low : (c &&& 0x3F).toNat = c.toNat % 64 := by
    rw [UInt32.toNat_and]
    exact Nat.and_two_pow_sub_one_eq_mod c.toNat 6
  have each : ∀ n : Fin 64, tagged 0x80 (.ofNat n) = UInt8.ofNat (n + 0x80) := by decide +kernel
  rw [tagged_eq each (by omega), low]
  rfl

theorem toNat_shiftRight (c : UInt32) {n : UInt32} (h : n < 32) :
    (c >>> n).toNat = c.toNat / 2 ^ n.toNat := by
  have small : n.toNat % 32 = n.toNat := Nat.mod_eq_of_lt (UInt32.lt_iff_toNat_lt.1 h)
  rw [UInt32.toNat_shiftRight, small, Nat.shiftRight_eq_div_pow]

/-- A code point is written as the character with its number. -/
theorem encode_val (c : Char) : encode c.val = String.utf8EncodeChar c := by
  have two : ∀ n : Fin 32, tagged 0xC0 (.ofNat n) = UInt8.ofNat (n + 0xC0) := by decide +kernel
  have three : ∀ n : Fin 16, tagged 0xE0 (.ofNat n) = UInt8.ofNat (n + 0xE0) := by decide +kernel
  have four : ∀ n : Fin 8, tagged 0xF0 (.ofNat n) = UInt8.ofNat (n + 0xF0) := by decide +kernel
  have valid : c.val.toNat < 0xD800 ∨ 0xDFFF < c.val.toNat ∧ c.val.toNat < 0x110000 := c.valid
  have at6 : (c.val >>> 6).toNat = c.val.toNat / 64 := toNat_shiftRight c.val (by decide)
  have at12 : (c.val >>> 12).toNat = c.val.toNat / 4096 := toNat_shiftRight c.val (by decide)
  have at18 : (c.val >>> 18).toNat = c.val.toNat / 262144 := toNat_shiftRight c.val (by decide)
  have le : ∀ n : UInt32, c.val ≤ n ↔ c.val.toNat ≤ n.toNat := fun n => UInt32.le_iff_toNat_le
  have bounds : (0x7F : UInt32).toNat = 0x7F ∧ (0x7FF : UInt32).toNat = 0x7FF ∧
    (0xFFFF : UInt32).toNat = 0xFFFF := by decide
  simp only [encode, String.utf8EncodeChar, le, bounds, tagged_trailing, at6, at12]
  split
  · rfl
  · split
    · rw [tagged_eq two (by omega), at6, Nat.mod_eq_of_lt (b := 32) (by omega)]
      rfl
    · split
      · rw [tagged_eq three (by omega), at12, Nat.mod_eq_of_lt (b := 16) (by omega)]
        rfl
      · rw [tagged_eq four (by omega), at18, Nat.mod_eq_of_lt (b := 8) (by omega)]
        rfl

end JsonTree.Utf8
