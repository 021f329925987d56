import JsonTree.Proofs.Parsing
import JsonTree.Proofs.Utf8

/-!
How a string is spelled. Each character of it stands as its own bytes, as an escape of one letter, or
as one or two units of four hex digits, and the reader takes exactly the bodies made of these, to the
characters they stand for.
-/
namespace JsonTree

def Byte.hexNumber (digits : List UInt8) : Nat := digits.foldl (fun n b => n * 16 + Byte.hexValue b) 0

namespace Grammar

/-- Four hex digits and the sixteen-bit unit they give. -/
structure UnitText (digits : List UInt8) (n : Nat) : Prop where
  four : digits.length = 4
  hex : ∀ b ∈ digits, Byte.isHexDigit b
  value : n = Byte.hexNumber digits

/-- The letters of the short escapes, each with the character it stands for. -/
def escapeLetters : List (Char × Char) :=
  [('"', '"'), ('\\', '\\'), ('/', '/'), ('b', '\x08'), ('f', '\x0C'), ('n', '\n'), ('r', '\r'),
    ('t', '\t')]

/-- What follows the backslash of an escape: a letter, a unit that is no surrogate, or a pair of
surrogates. -/
inductive EscapeText : List UInt8 → Char → Prop where
  | letter {l c : Char} : (l, c) ∈ escapeLetters → EscapeText [l.toUInt8] c
  | unit {t : List UInt8} {c : Char} : UnitText t c.toNat → EscapeText (Byte.lowerU :: t) c
  | pair {t u : List UInt8} {high low : Nat} {c : Char} : UnitText t high → UnitText u low →
      0xD800 ≤ high → high ≤ 0xDBFF → 0xDC00 ≤ low → low ≤ 0xDFFF →
      c.toNat = 0x10000 + 0x400 * (high - 0xD800) + (low - 0xDC00) →
      EscapeText (Byte.lowerU :: t ++ Byte.backslash :: Byte.lowerU :: u) c

/-- One character in a string: its own bytes, or an escape. -/
inductive CharText : List UInt8 → Char → Prop where
  | raw {c : Char} : c ≠ '"' → c ≠ '\\' → CharText (String.utf8EncodeChar c) c
  | escape {t : List UInt8} {c : Char} : EscapeText t c → CharText (Byte.backslash :: t) c

inductive CharsText : List UInt8 → List Char → Prop where
  | nil : CharsText [] []
  | cons {t u : List UInt8} {c : Char} {cs : List Char} : CharText t c → CharsText u cs →
      CharsText (t ++ u) (c :: cs)

end Grammar

open Grammar

theorem Byte.hexValue_lt {b : UInt8} (h : isHexDigit b) : hexValue b < 16 := by
  revert b
  decide +kernel

theorem Byte.hexNumber_lt {digits : List UInt8} (hex : ∀ b ∈ digits, isHexDigit b) :
    hexNumber digits < 16 ^ digits.length := by
  have from_first : ∀ n, digits.foldl (fun n b => n * 16 + hexValue b) n <
      (n + 1) * 16 ^ digits.length := by
    induction digits with
    | nil => simp
    | cons b rest ih =>
      intro n
      have low := hexValue_lt (hex b (by simp))
      rw [List.foldl_cons, List.length_cons, Nat.pow_succ', ← Nat.mul_assoc]
      refine Nat.lt_of_lt_of_le (ih (fun b hb => hex b (by simp [hb])) _) ?_
      exact Nat.mul_le_mul_right _ (by omega)
  simpa [hexNumber] using from_first 0

theorem Grammar.UnitText.lt {t : List UInt8} {n : Nat} (h : UnitText t n) : n < 0x10000 := by
  have bound := Byte.hexNumber_lt h.hex
  rw [h.four] at bound
  rw [h.value]
  exact bound

namespace Surrogate

theorem isHigh_iff (unit : UInt32) : isHigh unit ↔ 0xD800 ≤ unit.toNat ∧ unit.toNat ≤ 0xDBFF := by
  rw [isHigh, Bool.and_eq_true, decide_eq_true_eq, decide_eq_true_eq, UInt32.le_iff_toNat_le,
    UInt32.le_iff_toNat_le]
  rfl

theorem isLow_iff (unit : UInt32) : isLow unit ↔ 0xDC00 ≤ unit.toNat ∧ unit.toNat ≤ 0xDFFF := by
  rw [isLow, Bool.and_eq_true, decide_eq_true_eq, decide_eq_true_eq, UInt32.le_iff_toNat_le,
    UInt32.le_iff_toNat_le]
  rfl

/-- The halves give twenty bits above the first `0x10000` code points. -/
theorem toNat_combine {high low : UInt32} (isHigh : isHigh high) (isLow : isLow low) :
    (combine high low).toNat =
      0x10000 + 0x400 * (high.toNat - 0xD800) + (low.toNat - 0xDC00) := by
  have bounds := (isHigh_iff high).1 isHigh
  have bounds' := (isLow_iff low).1 isLow
  have ten : ∀ n : UInt32, (n &&& 0x3FF).toNat = n.toNat % 1024 := fun n => by
    rw [UInt32.toNat_and]
    exact Nat.and_two_pow_sub_one_eq_mod n.toNat 10
  have small : low.toNat % 1024 < 2 ^ 10 := Nat.mod_lt _ (by decide)
  have shifted : ((high &&& 0x3FF) <<< 10).toNat = (high.toNat % 1024) <<< 10 := by
    rw [UInt32.toNat_shiftLeft, ten]
    change (high.toNat % 1024) <<< 10 % 2 ^ 32 = _
    rw [Nat.shiftLeft_eq, Nat.mod_eq_of_lt (by omega)]
  rw [combine, UInt32.toNat_add, UInt32.toNat_or, shifted, ten,
    ← Nat.shiftLeft_add_eq_or_of_lt small, Nat.shiftLeft_eq]
  change (0x10000 + _) % 2 ^ 32 = _
  omega

end Surrogate

namespace Escape

theorem toNat_append_digit {n : UInt32} {b : UInt8} (digit : Byte.isHexDigit b)
    (small : n.toNat * 16 < 2 ^ 32) :
    ((n <<< 4) ||| (Byte.hexValue b).toUInt32).toNat = n.toNat * 16 + Byte.hexValue b := by
  have low : Byte.hexValue b < 2 ^ 4 := Byte.hexValue_lt digit
  have shifted : (n <<< 4).toNat = n.toNat <<< 4 := by
    rw [UInt32.toNat_shiftLeft]
    change n.toNat <<< 4 % 2 ^ 32 = _
    rw [Nat.shiftLeft_eq, Nat.mod_eq_of_lt small]
  have value : (Byte.hexValue b).toUInt32.toNat = Byte.hexValue b :=
    Nat.mod_eq_of_lt (Nat.lt_trans low (by decide))
  rw [UInt32.toNat_or, shifted, value, ← Nat.shiftLeft_add_eq_or_of_lt low, Nat.shiftLeft_eq]

theorem toNat_foldl {digits : List UInt8} (hex : ∀ b ∈ digits, Byte.isHexDigit b) {n : UInt32}
    (small : (n.toNat + 1) * 16 ^ digits.length ≤ 2 ^ 32) :
    (digits.foldl (fun (n : UInt32) b => (n <<< 4) ||| (Byte.hexValue b).toUInt32) n).toNat =
      digits.foldl (fun n b => n * 16 + Byte.hexValue b) n.toNat := by
  induction digits generalizing n with
  | nil => rfl
  | cons b rest ih =>
    have digit := hex b (by simp)
    have low := Byte.hexValue_lt digit
    have positive : 0 < 16 ^ rest.length := Nat.pow_pos (by decide)
    rw [List.length_cons, Nat.pow_succ', ← Nat.mul_assoc] at small
    have room : n.toNat * 16 < 2 ^ 32 := by
      have le := Nat.le_trans (Nat.le_mul_of_pos_right _ positive) small
      omega
    have next := toNat_append_digit digit room
    rw [List.foldl_cons, ih (fun b hb => hex b (by simp [hb])), next, List.foldl_cons]
    rw [next]
    exact Nat.le_trans (Nat.mul_le_mul_right _ (by omega)) small

theorem unit_eq_ok_iff {text : List UInt8} {u : UInt32} : unit text = .ok u ↔
    ∃ digits rest, text = digits ++ rest ∧ UnitText digits u.toNat := by
  have value : ∀ {digits : List UInt8}, digits.length = 4 → (∀ b ∈ digits, Byte.isHexDigit b) →
      (digits.foldl (fun (n : UInt32) b => (n <<< 4) ||| (Byte.hexValue b).toUInt32) 0).toNat =
        Byte.hexNumber digits := fun four hex =>
    toNat_foldl (n := 0) hex (by rw [four]; decide)
  constructor
  · intro h
    simp only [unit] at h
    split at h
    · contradiction
    · rename_i enough
      split at h
      · contradiction
      · rename_i found
        cases h
        have hex : ∀ b ∈ text.take 4, Byte.isHexDigit b := by
          simpa using List.findIdx?_eq_none_iff.1 found
        have four : (text.take 4).length = 4 :=
          Nat.le_antisymm (List.length_take_le _ _) (Nat.le_of_not_lt enough)
        exact ⟨_, _, (List.take_append_drop 4 text).symm, four, hex, value four hex⟩
  · rintro ⟨digits, rest, rfl, four, hex, same⟩
    have taken : (digits ++ rest).take 4 = digits := List.take_left' four
    have found : digits.findIdx? (!Byte.isHexDigit ·) = none := by
      rw [List.findIdx?_eq_none_iff]
      exact fun b hb => by rw [hex b hb]; rfl
    simp only [unit, taken, found, four, Nat.lt_irrefl, if_false]
    exact congrArg _ (UInt32.toNat_inj.1 ((value four hex).trans same.symm))

theorem unit_of_unitText {digits : List UInt8} {n : Nat} (h : UnitText digits n)
    (rest : List UInt8) :
    ∃ u : UInt32, u.toNat = n ∧ unit (digits ++ rest) = .ok u := by
  have small : n < 2 ^ 32 := Nat.lt_trans h.lt (by decide)
  have number : (UInt32.ofNat n).toNat = n := UInt32.toNat_ofNat_of_lt small
  exact ⟨.ofNat n, number, unit_eq_ok_iff.2 ⟨digits, rest, rfl, number.symm ▸ h⟩⟩

/-- The letters that the reader knows. -/
theorem simple?_eq (b : UInt8) : simple? b =
    (escapeLetters.find? (·.1.toUInt8 == b)).map fun p => UInt8.ofNat p.2.toNat := by
  revert b
  decide +kernel

theorem escapeLetters_ascii : ∀ p ∈ escapeLetters, p.1.toUInt8 ≠ Byte.lowerU ∧
    simple? p.1.toUInt8 = some (UInt8.ofNat p.2.toNat) ∧ p.1.toUInt8 < 0x80 ∧ p.2.toNat < 0x80 := by
  decide +kernel

theorem codePoint_of_unit {t : List UInt8} {c : Char} (h : UnitText t c.toNat)
    (rest : List UInt8) :
    codePoint (t ++ rest) = .ok (c.val, 4) := by
  obtain ⟨u, number, read⟩ := unit_of_unitText h rest
  obtain rfl : u = c.val := UInt32.toNat_inj.1 number
  have valid : c.val.toNat < 0xD800 ∨ 0xDFFF < c.val.toNat ∧ c.val.toNat < 0x110000 := c.valid
  have low : Surrogate.isLow c.val = false := by
    rw [Bool.eq_false_iff, ne_eq, Surrogate.isLow_iff]
    omega
  have high : Surrogate.isHigh c.val = false := by
    rw [Bool.eq_false_iff, ne_eq, Surrogate.isHigh_iff]
    omega
  simp [codePoint, read, low, high]

theorem codePoint_of_pair {t u : List UInt8} (rest : List UInt8) {high low : Nat} {c : Char}
    (first : UnitText t high) (second : UnitText u low) (highLeast : 0xD800 ≤ high)
    (highMost : high ≤ 0xDBFF) (lowLeast : 0xDC00 ≤ low) (lowMost : low ≤ 0xDFFF)
    (value : c.toNat = 0x10000 + 0x400 * (high - 0xD800) + (low - 0xDC00)) :
    codePoint (t ++ Byte.backslash :: Byte.lowerU :: (u ++ rest)) = .ok (c.val, 10) := by
  obtain ⟨h, rfl, readHigh⟩ :=
    unit_of_unitText first (Byte.backslash :: Byte.lowerU :: (u ++ rest))
  obtain ⟨l, rfl, readLow⟩ := unit_of_unitText second rest
  have isHigh := (Surrogate.isHigh_iff h).2 ⟨highLeast, highMost⟩
  have isLow := (Surrogate.isLow_iff l).2 ⟨lowLeast, lowMost⟩
  have other : Surrogate.isLow h = false := by
    rw [Bool.eq_false_iff, ne_eq, Surrogate.isLow_iff]
    omega
  have combined : Surrogate.combine h l = c.val :=
    UInt32.toNat_inj.1 ((Surrogate.toNat_combine isHigh isLow).trans value.symm)
  have following : (t ++ Byte.backslash :: Byte.lowerU :: (u ++ rest)).drop 4 =
      Byte.backslash :: Byte.lowerU :: (u ++ rest) := List.drop_left' first.four
  simp [codePoint, readHigh, isHigh, other, following, readLow, isLow, combined]

theorem read_of_escapeText {t : List UInt8} {c : Char} (h : EscapeText t c) (rest : List UInt8) :
    read (t ++ rest) = .ok (String.utf8EncodeChar c, t.length) := by
  cases h with
  | @letter l c known =>
    obtain ⟨other, simple, -, low⟩ := escapeLetters_ascii _ known
    simp [read, other, simple, Utf8.encodeChar_ascii low]
  | unit text =>
    simp [read, codePoint_of_unit text, Utf8.encode_val, text.four]
  | pair first second highLeast highMost lowLeast lowMost value =>
    have point := codePoint_of_pair rest first second highLeast highMost lowLeast lowMost
      value
    simp [read, point, Utf8.encode_val, first.four, second.four]

/-- A code point after the letter `u` is the number of a character. -/
theorem escapeText_of_codePoint {text : List UInt8} {p : UInt32} {n : Nat}
    (h : codePoint text = .ok (p, n)) : ∃ t rest c, text = t ++ rest ∧ n = t.length ∧
      EscapeText (Byte.lowerU :: t) c ∧ p = c.val := by
  unfold codePoint at h
  split at h
  · contradiction
  · rename_i high read
    obtain ⟨t, rest, rfl, first⟩ := unit_eq_ok_iff.1 read
    have bound := first.lt
    split at h
    · contradiction
    · rename_i notLow
      rw [Surrogate.isLow_iff] at notLow
      split at h
      · rename_i notHigh
        rw [Bool.not_eq_true', Bool.eq_false_iff, ne_eq, Surrogate.isHigh_iff] at notHigh
        cases h
        have valid : p.toNat.isValidChar := by
          rw [Nat.isValidChar]
          omega
        exact ⟨t, rest, ⟨p, valid⟩, rfl, first.four.symm, .unit first, rfl⟩
      · rename_i isHigh
        rw [Bool.not_eq_true', Bool.not_eq_false] at isHigh
        have highBounds := (Surrogate.isHigh_iff high).1 isHigh
        rw [List.drop_left' first.four] at h
        split at h
        · rename_i second
          split at h
          · contradiction
          · rename_i low readLow
            obtain ⟨u, rest, rfl, following⟩ := unit_eq_ok_iff.1 readLow
            split at h
            · rename_i isLow
              have lowBounds := (Surrogate.isLow_iff low).1 isLow
              have value := Surrogate.toNat_combine isHigh isLow
              cases h
              have valid : (Surrogate.combine high low).toNat.isValidChar := by
                rw [Nat.isValidChar]
                omega
              refine ⟨t ++ Byte.backslash :: Byte.lowerU :: u, rest, ⟨_, valid⟩, by simp, ?_,
                .pair first following highBounds.1 highBounds.2 lowBounds.1 lowBounds.2 value, rfl⟩
              simp [first.four, following.four]
            · contradiction
        · contradiction

theorem escapeText_of_read {text bytes : List UInt8} {n : Nat} (h : read text = .ok (bytes, n)) :
    ∃ t rest c, text = t ++ rest ∧ n = t.length ∧ EscapeText t c ∧
      bytes = String.utf8EncodeChar c := by
  unfold read at h
  split at h
  · contradiction
  · rename_i b more
    split at h
    · rename_i letter
      split at h
      · contradiction
      · rename_i point
        cases h
        obtain ⟨t, rest, c, rfl, rfl, escape, rfl⟩ := escapeText_of_codePoint point
        exact ⟨_, rest, c, by rw [letter]; rfl, rfl, escape, Utf8.encode_val c⟩
    · split at h
      · rename_i d simple
        cases h
        rw [simple?_eq, Option.map_eq_some_iff] at simple
        obtain ⟨p, found, rfl⟩ := simple
        obtain rfl : p.1.toUInt8 = b := by simpa using List.find?_some found
        have known := List.mem_of_find?_eq_some found
        have low := (escapeLetters_ascii p known).2.2.2
        exact ⟨[_], more, p.2, rfl, rfl, .letter known, (Utf8.encodeChar_ascii low).symm⟩
      · contradiction

end Escape

namespace Grammar

theorem EscapeText.ascii {t : List UInt8} {c : Char} (h : EscapeText t c) : ∀ b ∈ t, b < 0x80 := by
  have digits : ∀ {t : List UInt8} {n : Nat}, UnitText t n → ∀ b ∈ t, b < 0x80 := fun text b hb =>
    (Byte.isInner_of_isLiteral (Byte.isLiteral_of_isHexDigit (text.hex b hb))).1
  cases h with
  | letter known => exact List.forall_mem_singleton.2 (Escape.escapeLetters_ascii _ known).2.2.1
  | unit text => exact List.forall_mem_cons.2 ⟨by decide, digits text⟩
  | pair first second =>
    simp only [List.forall_mem_append, List.forall_mem_cons]
    exact ⟨⟨by decide, digits first⟩, by decide, by decide, digits second⟩

theorem EscapeText.utf8 {t : List UInt8} {c : Char} (h : EscapeText t c) :
    Utf8.ofChars (t.map Char.ofUInt8) = t := by
  simpa [Utf8.ofString] using Utf8.ofString_ofBytes h.ascii

theorem CharsText.utf8 {t : List UInt8} {cs : List Char} (h : CharsText t cs) :
    ∃ text, t = Utf8.ofChars text := by
  induction h with
  | nil => exact ⟨[], rfl⟩
  | cons first _ ih =>
    obtain ⟨text, rfl⟩ := ih
    cases first with
    | raw => exact ⟨_ :: text, (Utf8.ofChars_cons _ text).symm⟩
    | @escape t _ inner =>
      refine ⟨'\\' :: (t.map Char.ofUInt8 ++ text), ?_⟩
      rw [Utf8.ofChars_cons, Utf8.ofChars_append, inner.utf8]
      rfl

end Grammar

namespace Escape

theorem unescape_plain {bytes : List UInt8} (plain : ∀ b ∈ bytes, b ≠ Byte.backslash)
    (index : Nat) (done rest : List UInt8) :
    unescape index done (bytes ++ rest) =
      unescape (index + bytes.length) (bytes.reverse ++ done) rest := by
  induction bytes generalizing index done with
  | nil => rfl
  | cons b bytes ih =>
    rw [List.cons_append, unescape, if_neg (plain b (by simp)), ih (fun b hb => plain b (by simp [hb]))]
    simp [Nat.add_assoc, Nat.add_comm 1]

theorem unescape_escape {escape bytes : List UInt8} (rest : List UInt8)
    (h : read (escape ++ rest) = .ok (bytes, escape.length)) (index : Nat) (done : List UInt8) :
    unescape index done (Byte.backslash :: escape ++ rest) =
      unescape (index + 1 + escape.length) (bytes.reverse ++ done) rest := by
  rw [List.cons_append, unescape, if_pos rfl, h]
  simp

theorem ne_backslash {c : Char} (other : c ≠ '\\') :
    ∀ b ∈ String.utf8EncodeChar c, b ≠ Byte.backslash := by
  rintro b hb rfl
  exact Utf8.ne_of_mem_encodeChar hb (by decide) other rfl

theorem unescape_charText {t : List UInt8} {c : Char} (h : CharText t c) (index : Nat)
    (done rest : List UInt8) : unescape index done (t ++ rest) =
      unescape (index + t.length) ((String.utf8EncodeChar c).reverse ++ done) rest := by
  cases h with
  | raw _ other => exact unescape_plain (ne_backslash other) index done rest
  | escape inner =>
    rw [unescape_escape rest (read_of_escapeText inner rest), List.length_cons, Nat.add_assoc,
      Nat.add_comm 1]

theorem unescape_charsText {t : List UInt8} {cs : List Char} (h : CharsText t cs) (index : Nat)
    (done rest : List UInt8) : unescape index done (t ++ rest) =
      unescape (index + t.length) ((Utf8.ofChars cs).reverse ++ done) rest := by
  induction h generalizing index done with
  | nil => rfl
  | cons first _ ih =>
    rw [List.append_assoc, unescape_charText first, ih, Utf8.ofChars_cons, List.reverse_append,
      List.append_assoc, List.length_append, Nat.add_assoc]

theorem unescape_spelled {t : List UInt8} {cs : List Char} (h : CharsText t cs) :
    unescape 0 [] t = .ok (Utf8.ofChars cs) := by
  have alone := unescape_charsText h 0 [] []
  rw [List.append_nil] at alone
  simpa [unescape] using alone

end Escape

namespace Grammar

variable {t rest : List UInt8} {c : Char}

theorem Body.tail {b : UInt8} (other : b ≠ Byte.backslash) (h : Body (b :: rest)) :
    b ≠ Byte.quote ∧ b ≠ Byte.nul ∧ Body rest := by
  cases h with
  | plain _ unquoted filled inner => exact ⟨unquoted, filled, inner⟩
  | escaped => exact absurd rfl other

theorem Body.of_append (plain : ∀ b ∈ t, b ≠ Byte.backslash) (h : Body (t ++ rest)) :
    (∀ b ∈ t, b ≠ Byte.backslash ∧ b ≠ Byte.quote ∧ b ≠ Byte.nul) ∧ Body rest := by
  induction t with
  | nil => exact ⟨by simp, h⟩
  | cons b t ih =>
    rw [List.forall_mem_cons] at plain ⊢
    obtain ⟨unquoted, filled, inner⟩ := h.tail plain.1
    obtain ⟨others, inner⟩ := ih plain.2 inner
    exact ⟨⟨⟨plain.1, unquoted, filled⟩, others⟩, inner⟩

theorem EscapeText.body (h : EscapeText t c) (inner : Body (Byte.backslash :: (t ++ rest))) :
    Body rest := by
  have digits : ∀ {t : List UInt8} {n : Nat}, UnitText t n → ∀ b ∈ t, b ≠ Byte.backslash :=
    fun text b hb => (Byte.isHexDigit_ne (text.hex b hb)).1
  have after : ∀ {b : UInt8} {rest : List UInt8}, Body (Byte.backslash :: b :: rest) → Body rest := by
    intro b rest inner
    cases inner with
    | plain other => exact absurd rfl other
    | escaped inner => exact inner
  cases h with
  | letter => exact after inner
  | unit text => exact ((after inner).of_append (digits text)).2
  | pair first second =>
    rw [List.append_assoc] at inner
    exact ((after ((after inner).of_append (digits first)).2).of_append (digits second)).2

theorem Body.append (plain : ∀ b ∈ t, b ≠ Byte.backslash ∧ b ≠ Byte.quote ∧ b ≠ Byte.nul)
    (inner : Body rest) : Body (t ++ rest) := by
  induction t with
  | nil => exact inner
  | cons b t ih =>
    rw [List.forall_mem_cons] at plain
    exact .plain plain.1.1 plain.1.2.1 plain.1.2.2 (ih plain.2)

theorem EscapeText.body_append (h : EscapeText t c) (inner : Body rest) :
    Body (Byte.backslash :: (t ++ rest)) := by
  have digits : ∀ {t : List UInt8} {n : Nat}, UnitText t n →
      ∀ b ∈ t, b ≠ Byte.backslash ∧ b ≠ Byte.quote ∧ b ≠ Byte.nul :=
    fun text b hb => Byte.isHexDigit_ne (text.hex b hb)
  cases h with
  | letter => exact .escaped inner
  | unit text => exact .escaped (inner.append (digits text))
  | pair first second =>
    rw [List.append_assoc]
    exact .escaped (Body.append (digits first) (.escaped (inner.append (digits second))))

/-- A spelled text is the body of a string if it holds no NUL. -/
theorem CharsText.body {t : List UInt8} {cs : List Char} (h : CharsText t cs)
    (filled : ∀ b ∈ t, b ≠ Byte.nul) : Body t := by
  induction h with
  | nil => exact .nil
  | cons first _ ih =>
    rw [List.forall_mem_append] at filled
    cases first with
    | escape inner => exact inner.body_append (ih filled.2)
    | raw unquoted other =>
      refine (ih filled.2).append fun b hb => ⟨Escape.ne_backslash other b hb, ?_, filled.1 b hb⟩
      rintro rfl
      exact Utf8.ne_of_mem_encodeChar hb (by decide) unquoted rfl

/-- What follows ASCII bytes in the bytes of a text are the bytes of a shorter one. -/
theorem exists_rest {text : List Char} (ascii : ∀ b ∈ t, b < 0x80)
    (h : Utf8.ofChars text = t ++ rest) :
    ∃ more, rest = Utf8.ofChars more ∧ more.length ≤ text.length := by
  induction t generalizing text with
  | nil => exact ⟨text, h.symm, Nat.le_refl _⟩
  | cons b t ih =>
    rw [List.forall_mem_cons] at ascii
    cases text with
    | nil => contradiction
    | cons c text =>
      rw [Utf8.ofChars_cons] at h
      have first : b ∈ String.utf8EncodeChar c := by
        cases bytes : String.utf8EncodeChar c with
        | nil => exact absurd bytes (by simp)
        | cons d more =>
          rw [bytes, List.cons_append, List.cons_append, List.cons.injEq] at h
          exact h.1 ▸ List.mem_cons_self
      have small : b.toNat < 0x80 := UInt8.lt_iff_toNat_lt.1 ascii.1
      have low : c.toNat < 0x80 := by
        have apart := Utf8.mem_encodeChar first
        omega
      rw [Utf8.encodeChar_ascii low, List.singleton_append, List.cons_append, List.cons.injEq] at h
      obtain ⟨more, same, shorter⟩ := ih ascii.2 h.2
      exact ⟨more, same, Nat.le_succ_of_le shorter⟩

/-- A body is spelled out character by character, up to its end or to a backslash after which no
escape is read. -/
theorem exists_spelled (text : List Char) (inner : Body (Utf8.ofChars text)) :
    ∃ before rest cs, Utf8.ofChars text = before ++ rest ∧ CharsText before cs ∧ Body before ∧
      (rest = [] ∨ ∃ more f, rest = Byte.backslash :: more ∧ Escape.read more = .error f) := by
  -- By the number of characters left: an escape takes several of them at once.
  induction size : text.length using Nat.strongRecOn generalizing text with
  | ind size ih =>
    cases text with
    | nil => exact ⟨[], [], [], rfl, .nil, .nil, .inl rfl⟩
    | cons c text =>
      subst size
      by_cases slash : c = '\\'
      · have bytes : Utf8.ofChars (c :: text) = Byte.backslash :: Utf8.ofChars text := by
          rw [slash, Utf8.ofChars_cons]
          rfl
        rw [bytes] at inner ⊢
        cases read : Escape.read (Utf8.ofChars text) with
        | error f => exact ⟨[], _, [], rfl, .nil, .nil, .inr ⟨_, f, rfl, read⟩⟩
        | ok =>
          obtain ⟨t, _, d, parts, -, escape, -⟩ := Escape.escapeText_of_read read
          obtain ⟨more, rfl, shorter⟩ := exists_rest escape.ascii parts
          rw [parts] at inner ⊢
          obtain ⟨before, rest, cs, same, spelled, whole, stop⟩ :=
            ih more.length (Nat.lt_succ_of_le shorter) more (escape.body inner) rfl
          exact ⟨_, rest, d :: cs, by simp [same], .cons (.escape escape) spelled,
            escape.body_append whole, stop⟩
      · rw [Utf8.ofChars_cons] at inner ⊢
        obtain ⟨plain, inner⟩ := inner.of_append (Escape.ne_backslash slash)
        have unquoted : c ≠ '"' := by
          rintro rfl
          exact (plain _ List.mem_cons_self).2.1 rfl
        obtain ⟨before, rest, cs, same, spelled, whole, stop⟩ :=
          ih text.length (Nat.lt_succ_self _) text inner rfl
        exact ⟨_, rest, c :: cs, by simp [same], .cons (.raw unquoted slash) spelled,
          whole.append plain, stop⟩

/-- A body that the reader of escapes takes is spelled out to its end. -/
theorem charsText_of_unescape {text : List Char} {out : List UInt8}
    (inner : Body (Utf8.ofChars text)) (h : Escape.unescape 0 [] (Utf8.ofChars text) = .ok out) :
    ∃ cs, CharsText (Utf8.ofChars text) cs ∧ out = Utf8.ofChars cs := by
  obtain ⟨before, rest, cs, parts, spelled, -, rfl | ⟨more, f, rfl, failed⟩⟩ :=
    exists_spelled text inner
  · rw [parts, List.append_nil] at h ⊢
    rw [Escape.unescape_spelled spelled] at h
    cases h
    exact ⟨cs, spelled, rfl⟩
  · rw [parts, Escape.unescape_charsText spelled, Escape.unescape, if_pos rfl, failed] at h
    contradiction

end Grammar

namespace Quoted

/-- Bytes that the reader of escapes gives are those of a text, so the last check does not fail. -/
theorem fromUTF8?_of_unescape {body bytes : List UInt8} (inner : Body body)
    (valid : Utf8.validLength body = body.length) (h : Escape.unescape 0 [] body = .ok bytes) :
    ∃ s : String, String.fromUTF8? ⟨bytes.toArray⟩ = some s ∧ CharsText body s.toList := by
  obtain ⟨text, rfl⟩ := Utf8.validLength_eq_length_iff.1 valid
  obtain ⟨cs, spelled, rfl⟩ := charsText_of_unescape inner h
  have back := Utf8.fromUTF8?_ofString (String.ofList cs)
  rw [Utf8.ofString, String.toList_ofList] at back
  exact ⟨String.ofList cs, back, by rwa [String.toList_ofList]⟩

theorem decode_of_charsText {body : List UInt8} {s : String} (h : CharsText body s.toList) :
    decode body = .ok s := by
  obtain ⟨text, same⟩ := h.utf8
  have valid := Utf8.validLength_eq_length_iff.2 ⟨text, same⟩
  have bytes := Escape.unescape_spelled h
  have back : String.fromUTF8? ⟨(Utf8.ofChars s.toList).toArray⟩ = some s :=
    Utf8.fromUTF8?_ofString s
  simp [decode, valid, bytes, back]

theorem decode_eq_ok_iff {body : List UInt8} {s : String} (inner : Body body) :
    decode body = .ok s ↔ CharsText body s.toList := by
  refine ⟨fun h => ?_, decode_of_charsText⟩
  have le := Utf8.validLength_le body
  simp only [decode] at h
  split at h
  · contradiction
  · rename_i valid
    split at h
    · contradiction
    · rename_i bytes unescaped
      obtain ⟨s', back, spelled⟩ := fromUTF8?_of_unescape inner (by omega) unescaped
      rw [back] at h
      cases h
      exact spelled

/-- The string whose opening quote comes first is read if it is closed, with no NUL before, if what
is between the quotes is UTF-8, and if that is spelled out of characters and escapes. The result is
what is spelled, and what follows the closing quote is left. However a text is spelled, it is read
alike, and bytes put together from a body are always a text. -/
theorem read_spelled (offset : Nat) (left : List UInt8) :
    (∀ s rest, read ⟨offset, Byte.quote :: left⟩ = .ok (s, rest) ↔
      ∃ body after, left = body ++ Byte.quote :: after ∧ Body body ∧
        (∃ text, body = Utf8.ofChars text) ∧ CharsText body s.toList ∧
        rest = ⟨offset + body.length + 2, after⟩) ∧
    (∀ body body' cs, CharsText body cs → CharsText body' cs →
      decode body = .ok (.ofList cs) ∧ decode body = decode body') ∧
    (∀ n bytes, bodyLength 0 false left = .ok n →
      Utf8.validLength (left.take n) = (left.take n).length →
      Escape.unescape 0 [] (left.take n) = .ok bytes →
      ∃ s, String.fromUTF8? ⟨bytes.toArray⟩ = some s) := by
  refine ⟨fun s rest => ⟨fun h => ?_, ?_⟩, fun body body' cs h h' => ?_, fun n bytes found => ?_⟩
  · obtain ⟨_, ⟨inner, decoded⟩, taken⟩ := read_sound rfl h
    rename_i body
    have spelled := (decode_eq_ok_iff inner).1 decoded
    have place : rest.offset = offset + body.length + 2 := by
      rw [taken.offset]
      simp [Nat.add_assoc]
    refine ⟨body, rest.bytes, ?_, inner, spelled.utf8, spelled, by rw [← place]⟩
    simpa using taken.bytes
  · rintro ⟨body, after, rfl, inner, _, spelled, rfl⟩
    refine read_of_splits (.quoted inner (decode_of_charsText spelled)) ⟨?_, ?_⟩
    · simp
    · simp [Nat.add_assoc]
  · have decoded : ∀ {body : List UInt8}, CharsText body cs → decode body = .ok (.ofList cs) :=
      fun spelled => decode_of_charsText (by rwa [String.toList_ofList])
    exact ⟨decoded h, (decoded h).trans (decoded h').symm⟩
  · obtain ⟨body, rest, rfl, rfl, inner⟩ := body_of_bodyLength found
    rw [Nat.zero_add, List.take_left]
    intro valid unescaped
    obtain ⟨s, back, -⟩ := fromUTF8?_of_unescape inner valid unescaped
    exact ⟨s, back⟩

/-- A character above `0xFFFF`, as a pair of escapes and as its own bytes. -/
theorem read_spelled_pair :
    decode (Utf8.ofString "\\ud83d\\uDE00") = decode (Utf8.ofString "😀") ∧
      ∃ s, String.fromUTF8? ⟨#[0xF0, 0x9F, 0x98, 0x80]⟩ = some s := by
  have high : UnitText (Utf8.ofString "d83d") 0xD83D := ⟨rfl, by decide +kernel, rfl⟩
  have low : UnitText (Utf8.ofString "DE00") 0xDE00 := ⟨rfl, by decide +kernel, rfl⟩
  have pair : EscapeText (Utf8.ofString "ud83d\\uDE00") '😀' :=
    .pair high low (by decide) (by decide) (by decide) (by decide) rfl
  have escaped : CharsText (Utf8.ofString "\\ud83d\\uDE00") ['😀'] :=
    CharsText.cons (u := []) (CharText.escape pair) .nil
  have raw : CharsText (Utf8.ofString "😀") ['😀'] :=
    CharsText.cons (u := []) (CharText.raw (by decide) (by decide)) .nil
  obtain ⟨-, alike, checked⟩ := read_spelled 0 (Utf8.ofString "\\ud83d\\uDE00\"")
  have bytes := Escape.unescape_spelled escaped
  exact ⟨(alike _ _ _ escaped raw).2, checked 12 _ rfl (by decide +kernel) bytes⟩

end Quoted

end JsonTree
