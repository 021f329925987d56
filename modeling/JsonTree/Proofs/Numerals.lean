import JsonTree.Proofs.Faults
import Mathlib.Computability.RegularExpressions

/-!
The regular language of number literals. A text is read as a literal when it matches the expression
for hex integers or the one for decimals. Each part of a literal has an expression of its own, which
the texts of that part match and no others.
-/
namespace JsonTree

namespace Numeral

open RegularExpression

/-! ### Expressions -/

def oneOf (cs : String) : RegularExpression UInt8 := (cs.toList.map fun c => char c.toUInt8).sum

def atMostOne (r : RegularExpression UInt8) : RegularExpression UInt8 := 1 + r

def atLeastOne (r : RegularExpression UInt8) : RegularExpression UInt8 := r * r.star

def sign : RegularExpression UInt8 := atMostOne (oneOf "+-")

def digit : RegularExpression UInt8 := oneOf "0123456789"

/-- Without a zero in front of other digits. -/
def whole : RegularExpression UInt8 := oneOf "0" + oneOf "123456789" * digit.star

def significand : RegularExpression UInt8 :=
  whole * atMostOne (oneOf ".") + whole * (oneOf "." * atLeastOne digit) +
    oneOf "." * atLeastOne digit

def exponent : RegularExpression UInt8 := oneOf "eE" * (sign * atLeastOne digit)

def decimal : RegularExpression UInt8 := sign * (significand * atMostOne exponent)

def hexPrefix : RegularExpression UInt8 := sign * (oneOf "0" * oneOf "xX")

def hex : RegularExpression UInt8 := hexPrefix * atLeastOne (oneOf "0123456789ABCDEFabcdef")

def number : RegularExpression UInt8 := hex + decimal

/-! ### What they match -/

variable {r : RegularExpression UInt8} {p : UInt8 → Bool} {cs : String} {t : List UInt8}

/-- The expression matches the bytes of a class, one at a time. -/
def Single (p : UInt8 → Bool) (r : RegularExpression UInt8) : Prop :=
  ∀ t, t ∈ r.matches' ↔ ∃ b, p b ∧ t = [b]

theorem mem_sum {bytes : List UInt8} : t ∈ (bytes.map char).sum.matches' ↔ ∃ b ∈ bytes, t = [b] := by
  induction bytes with
  | nil => simp [matches'_zero, Language.notMem_zero]
  | cons b rest ih =>
    have first : t ∈ (char b).matches' ↔ t = [b] := Iff.rfl
    rw [List.map_cons, List.sum_cons, matches'_add, Language.mem_add, ih, first]
    simp

theorem single_oneOf (same : ∀ b, p b = (cs.toList.map Char.toUInt8).contains b) :
    Single p (oneOf cs) := by
  intro t
  have bytes : oneOf cs = ((cs.toList.map Char.toUInt8).map char).sum := by
    rw [oneOf, List.map_map]
    rfl
  rw [bytes, mem_sum]
  simp [same]

theorem mem_atMostOne : t ∈ (atMostOne r).matches' ↔ t = [] ∨ t ∈ r.matches' := by
  rw [atMostOne, matches'_add, Language.mem_add, matches'_epsilon, Language.mem_one]

theorem Single.mem_star (h : Single p r) : t ∈ r.star.matches' ↔ ∀ b ∈ t, p b := by
  rw [matches'_star, Language.mem_kstar]
  constructor
  · rintro ⟨parts, rfl, each⟩ b hb
    obtain ⟨part, inside, hb⟩ := List.mem_flatten.1 hb
    obtain ⟨c, class_, rfl⟩ := (h part).1 (each part inside)
    rwa [List.mem_singleton.1 hb]
  · intro all
    refine ⟨t.map fun b => [b], (List.flatMap_singleton' t).symm, fun part inside => ?_⟩
    obtain ⟨b, hb, rfl⟩ := List.mem_map.1 inside
    exact (h _).2 ⟨b, all b hb, rfl⟩

theorem Single.mem_mul {s : RegularExpression UInt8} (h : Single p r) :
    t ∈ (r * s).matches' ↔ ∃ b u, p b ∧ u ∈ s.matches' ∧ t = b :: u := by
  rw [matches'_mul, Language.mem_mul]
  constructor
  · rintro ⟨v, first, u, rest, rfl⟩
    obtain ⟨b, class_, rfl⟩ := (h v).1 first
    exact ⟨b, u, class_, rest, rfl⟩
  · rintro ⟨b, u, class_, rest, rfl⟩
    exact ⟨[b], (h _).2 ⟨b, class_, rfl⟩, u, rest, rfl⟩

theorem Single.mem_atLeastOne (h : Single p r) :
    t ∈ (atLeastOne r).matches' ↔ t ≠ [] ∧ ∀ b ∈ t, p b := by
  rw [atLeastOne, h.mem_mul]
  constructor
  · rintro ⟨b, u, first, rest, rfl⟩
    exact ⟨List.cons_ne_nil b u, List.forall_mem_cons.2 ⟨first, h.mem_star.1 rest⟩⟩
  · rintro ⟨some_byte, all⟩
    obtain ⟨b, u, rfl⟩ := List.exists_cons_of_ne_nil some_byte
    obtain ⟨first, rest⟩ := List.forall_mem_cons.1 all
    exact ⟨b, u, first, h.mem_star.2 rest, rfl⟩

theorem single_digit : Single Byte.isDigit digit := single_oneOf (by decide +kernel)

theorem single_hexDigit : Single Byte.isHexDigit (oneOf "0123456789ABCDEFabcdef") :=
  single_oneOf (by decide +kernel)

theorem single_point : Single (· == Byte.point) (oneOf ".") := single_oneOf (by decide +kernel)

theorem single_zero : Single (· == Byte.zero) (oneOf "0") := single_oneOf (by decide +kernel)

theorem mem_sign : t ∈ sign.matches' ↔ ∃ s : Sign, t = s.text := by
  have either : Single (fun b => b == Byte.plus || b == Byte.minus) (oneOf "+-") :=
    single_oneOf (by decide +kernel)
  rw [sign, mem_atMostOne, either]
  constructor
  · rintro (rfl | ⟨b, same, rfl⟩)
    · exact ⟨.none, rfl⟩
    · rw [Bool.or_eq_true, beq_iff_eq, beq_iff_eq] at same
      rcases same with rfl | rfl
      · exact ⟨.plus, rfl⟩
      · exact ⟨.minus, rfl⟩
  · rintro ⟨s, rfl⟩
    cases s with
    | none => exact .inl rfl
    | plus => exact .inr ⟨Byte.plus, rfl, rfl⟩
    | minus => exact .inr ⟨Byte.minus, rfl, rfl⟩

theorem mem_whole : t ∈ whole.matches' ↔
    t ≠ [] ∧ (∀ b ∈ t, Byte.isDigit b) ∧ (t.head? = some Byte.zero → t.length = 1) := by
  have nonzero : Single (fun b => Byte.isDigit b && b != Byte.zero) (oneOf "123456789") :=
    single_oneOf (by decide +kernel)
  rw [whole, matches'_add, Language.mem_add, single_zero, nonzero.mem_mul]
  constructor
  · rintro (⟨b, zero, rfl⟩ | ⟨b, u, first, rest, rfl⟩)
    · rw [beq_iff_eq.1 zero]
      exact ⟨List.cons_ne_nil _ _, List.forall_mem_singleton.2 rfl, fun _ => rfl⟩
    · rw [Bool.and_eq_true, bne_iff_ne] at first
      exact ⟨List.cons_ne_nil _ _, List.forall_mem_cons.2 ⟨first.1, single_digit.mem_star.1 rest⟩,
        fun zero => absurd (Option.some.inj zero) first.2⟩
  · rintro ⟨some_digit, all, unpadded⟩
    obtain ⟨b, u, rfl⟩ := List.exists_cons_of_ne_nil some_digit
    obtain ⟨first, rest⟩ := List.forall_mem_cons.1 all
    by_cases zero : b = Byte.zero
    · have alone := unpadded (congrArg some zero)
      rw [List.length_cons, Nat.add_eq_right, List.length_eq_zero_iff] at alone
      exact .inl ⟨b, beq_iff_eq.2 zero, by rw [alone]⟩
    · exact .inr ⟨b, u, by simp [first, zero], single_digit.mem_star.2 rest, rfl⟩

theorem mem_fraction : t ∈ (oneOf "." * atLeastOne digit).matches' ↔
    ∃ f, f ≠ [] ∧ (∀ b ∈ f, Byte.isDigit b) ∧ t = Byte.point :: f := by
  rw [single_point.mem_mul]
  simp only [beq_iff_eq, single_digit.mem_atLeastOne]
  constructor
  · rintro ⟨_, f, rfl, ⟨some_digit, all⟩, rfl⟩
    exact ⟨f, some_digit, all, rfl⟩
  · rintro ⟨f, some_digit, all, rfl⟩
    exact ⟨_, f, rfl, ⟨some_digit, all⟩, rfl⟩

/-- A decimal without a sign and an exponent. -/
def Bare (d : DecimalLiteral) : Prop := d.WellFormed ∧ d.sign = .none ∧ d.exponent = none

/-- What comes before and after the point makes a significand, as long as there is a digit. -/
theorem exists_bare (point : Bool) {w f : List UInt8} (some_digit : w ≠ [] ∨ f ≠ [])
    (before : w ≠ [] → w ∈ whole.matches') (pointed : f ≠ [] → point = true)
    (after : ∀ b ∈ f, Byte.isDigit b) :
    ∃ d, Bare d ∧ w ++ (if point then [Byte.point] else []) ++ f = d.significandText := by
  have digits : ∀ b ∈ w, Byte.isDigit b := fun b hb =>
    (mem_whole.1 (before (List.ne_nil_of_mem hb))).2.1 b hb
  have unpadded : w.head? = some Byte.zero → w.length = 1 := fun zero =>
    (mem_whole.1 (before (List.ne_nil_of_mem (List.mem_of_mem_head? zero)))).2.2 zero
  exact ⟨⟨.none, w, point, f, none⟩,
    ⟨⟨some_digit, digits, unpadded, pointed, after, nofun⟩, rfl, rfl⟩, rfl⟩

theorem mem_significand : t ∈ significand.matches' ↔ ∃ d, Bare d ∧ t = d.significandText := by
  rw [significand, matches'_add, Language.mem_add, matches'_add, Language.mem_add]
  constructor
  · rintro ((h | h) | h)
    · obtain ⟨w, before, u, rest, rfl⟩ := Language.mem_mul.1 h
      have some_digit := (mem_whole.1 before).1
      rcases mem_atMostOne.1 rest with rfl | point
      · simpa using exists_bare false (f := []) (.inl some_digit) (fun _ => before) nofun nofun
      · obtain ⟨b, same, rfl⟩ := (single_point u).1 point
        rw [beq_iff_eq.1 same]
        simpa using exists_bare true (f := []) (.inl some_digit) (fun _ => before) nofun nofun
    · obtain ⟨w, before, u, rest, rfl⟩ := Language.mem_mul.1 h
      obtain ⟨f, some_digit, after, rfl⟩ := mem_fraction.1 rest
      simpa using exists_bare true (.inr some_digit) (fun _ => before) (fun _ => rfl) after
    · obtain ⟨f, some_digit, after, rfl⟩ := mem_fraction.1 h
      simpa using exists_bare true (w := []) (.inr some_digit) nofun (fun _ => rfl) after
  · rintro ⟨⟨_, w, point, f, _⟩, ⟨⟨some_digit, digits, unpadded, pointed, after, _⟩, rfl, rfl⟩, rfl⟩
    rw [DecimalLiteral.significandText, Sign.text, List.nil_append, List.append_assoc]
    by_cases fraction : f = []
    · -- Without a fraction there are digits before the point, and the point is optional.
      have before := mem_whole.2 ⟨some_digit.resolve_right (· fraction), digits, unpadded⟩
      refine .inl (.inl (Language.mem_mul.2 ⟨w, before, _, mem_atMostOne.2 ?_, rfl⟩))
      cases point with
      | false => exact .inl fraction
      | true => exact .inr ((single_point _).2 ⟨Byte.point, rfl, by rw [fraction]; rfl⟩)
    · have rest := mem_fraction.2 ⟨f, fraction, after, rfl⟩
      rw [pointed fraction, if_pos rfl, List.singleton_append]
      by_cases none_before : w = []
      · rw [none_before]
        exact .inr rest
      · have before := mem_whole.2 ⟨none_before, digits, unpadded⟩
        exact .inl (.inr (Language.mem_mul.2 ⟨w, before, _, rest, rfl⟩))

theorem mem_exponent : t ∈ exponent.matches' ↔ ∃ e : Exponent, e.WellFormed ∧ t = e.text := by
  have letter : Single (fun b => b == Byte.lowerE || b == Byte.upperE) (oneOf "eE") :=
    single_oneOf (by decide +kernel)
  rw [exponent, letter.mem_mul]
  simp only [Bool.or_eq_true, beq_iff_eq]
  constructor
  · rintro ⟨mark, _, known, rest, rfl⟩
    obtain ⟨_, signed, digits, run, rfl⟩ := Language.mem_mul.1 rest
    obtain ⟨s, rfl⟩ := mem_sign.1 signed
    obtain ⟨some_digit, all⟩ := single_digit.mem_atLeastOne.1 run
    exact ⟨⟨mark, s, digits⟩, ⟨known, some_digit, all⟩, rfl⟩
  · rintro ⟨⟨mark, s, digits⟩, ⟨known, some_digit, all⟩, rfl⟩
    have run := single_digit.mem_atLeastOne.2 ⟨some_digit, all⟩
    exact ⟨mark, _, known, Language.mem_mul.2 ⟨_, mem_sign.2 ⟨s, rfl⟩, digits, run, rfl⟩, rfl⟩

theorem mem_decimal : t ∈ decimal.matches' ↔ ∃ d : DecimalLiteral, d.WellFormed ∧ t = d.text := by
  rw [decimal, matches'_mul, Language.mem_mul]
  constructor
  · rintro ⟨_, signed, _, rest, rfl⟩
    obtain ⟨s, rfl⟩ := mem_sign.1 signed
    obtain ⟨_, bare, u, power, rfl⟩ := Language.mem_mul.1 rest
    obtain ⟨d, ⟨formed, none_before, none_after⟩, rfl⟩ := mem_significand.1 bare
    have text : ∃ e : Option Exponent, (∀ e' ∈ e, e'.WellFormed) ∧ u = (e.map Exponent.text).getD [] := by
      rcases mem_atMostOne.1 power with rfl | power
      · exact ⟨none, by simp, rfl⟩
      · obtain ⟨e, powers, rfl⟩ := mem_exponent.1 power
        exact ⟨some e, by simpa using powers, rfl⟩
    obtain ⟨e, powers, rfl⟩ := text
    refine ⟨{ d with sign := s, exponent := e }, { formed with exponent := powers }, ?_⟩
    simp [DecimalLiteral.text, DecimalLiteral.significandText, none_before, Sign.text]
  · rintro ⟨d, formed, rfl⟩
    have bare : Bare { d with sign := .none, exponent := none } :=
      ⟨{ formed with exponent := by simp }, rfl, rfl⟩
    have power : (d.exponent.map Exponent.text).getD [] ∈ (atMostOne exponent).matches' := by
      cases same : d.exponent with
      | none => exact mem_atMostOne.2 (.inl rfl)
      | some e => exact mem_atMostOne.2 (.inr (mem_exponent.2 ⟨e, formed.exponent e same, rfl⟩))
    refine ⟨_, mem_sign.2 ⟨d.sign, rfl⟩, _,
      Language.append_mem_mul (mem_significand.2 ⟨_, bare, rfl⟩) power, ?_⟩
    simp [DecimalLiteral.text, DecimalLiteral.significandText, Sign.text]

theorem mem_hexPrefix : t ∈ hexPrefix.matches' ↔ ∃ (s : Sign) (mark : UInt8),
    (mark = Byte.lowerX ∨ mark = Byte.upperX) ∧ t = s.text ++ [Byte.zero, mark] := by
  have letter : Single (fun b => b == Byte.lowerX || b == Byte.upperX) (oneOf "xX") :=
    single_oneOf (by decide +kernel)
  rw [hexPrefix, matches'_mul, Language.mem_mul]
  constructor
  · rintro ⟨_, signed, _, rest, rfl⟩
    obtain ⟨s, rfl⟩ := mem_sign.1 signed
    obtain ⟨z, u, zero, marked, rfl⟩ := single_zero.mem_mul.1 rest
    obtain ⟨mark, known, rfl⟩ := (letter u).1 marked
    rw [Bool.or_eq_true, beq_iff_eq, beq_iff_eq] at known
    exact ⟨s, mark, known, by rw [beq_iff_eq.1 zero]⟩
  · rintro ⟨s, mark, known, rfl⟩
    have marked := (letter _).2 ⟨mark, by simpa using known, rfl⟩
    exact ⟨_, mem_sign.2 ⟨s, rfl⟩, _, single_zero.mem_mul.2 ⟨Byte.zero, _, rfl, marked, rfl⟩, rfl⟩

theorem mem_hex : t ∈ hex.matches' ↔ ∃ h : HexLiteral, h.WellFormed ∧ t = h.text := by
  rw [hex, matches'_mul, Language.mem_mul]
  constructor
  · rintro ⟨_, opening, digits, run, rfl⟩
    obtain ⟨s, mark, known, rfl⟩ := mem_hexPrefix.1 opening
    obtain ⟨some_digit, all⟩ := single_hexDigit.mem_atLeastOne.1 run
    exact ⟨⟨s, mark, digits⟩, ⟨known, some_digit, all⟩, by simp [HexLiteral.text]⟩
  · rintro ⟨h, ⟨known, some_digit, all⟩, rfl⟩
    have run := single_hexDigit.mem_atLeastOne.2 ⟨some_digit, all⟩
    exact ⟨_, mem_hexPrefix.2 ⟨h.sign, h.mark, known, rfl⟩, h.digits, run, by simp [HexLiteral.text]⟩

theorem mem_number : t ∈ number.matches' ↔ ∃ l : Literal, l.WellFormed ∧ l.text = t := by
  rw [number, matches'_add, Language.mem_add, mem_hex, mem_decimal]
  constructor
  · rintro (⟨h, formed, rfl⟩ | ⟨d, formed, rfl⟩)
    · exact ⟨.hex h, formed, rfl⟩
    · exact ⟨.decimal d, formed, rfl⟩
  · rintro ⟨l, formed, rfl⟩
    cases l with
    | hex h => exact .inl ⟨h, formed, rfl⟩
    | decimal d => exact .inr ⟨d, formed, rfl⟩

end Numeral

/-! ### Rejections -/

/-- The text has the opening of a hex literal. -/
def OpensHex (t : List UInt8) : Prop := ∃ p ∈ Numeral.hexPrefix.matches', p <+: t

theorem opensHex_text {h : HexLiteral} (known : h.mark = Byte.lowerX ∨ h.mark = Byte.upperX) :
    OpensHex h.text :=
  ⟨_, Numeral.mem_hexPrefix.2 ⟨h.sign, h.mark, known, rfl⟩, h.digits, by simp [HexLiteral.text]⟩

theorem DecimalLiteral.read_kind {length : Nat} {sign : Sign} {body : List UInt8} {f : Fault}
    (failed : read length sign body = .error f) : f.kind = .invalidNumber := by
  have reading := read_reading length sign body
  rw [failed] at reading
  cases reading <;> rfl

theorem Literal.opensHex_of_read {bytes : List UInt8} {f : Fault} (failed : read bytes = .error f)
    (kind : f.kind = .invalidHex) : OpensHex bytes := by
  obtain ⟨sign, body, split⟩ : ∃ sign body, Sign.split bytes = (sign, body) := ⟨_, _, rfl⟩
  have parts := Sign.text_split bytes
  simp only [read, split] at failed parts
  subst parts
  split at failed
  · rename_i mark digits found
    obtain ⟨rfl, known⟩ := HexLiteral.split?_eq_some_iff.1 found
    exact opensHex_text (h := ⟨sign, mark, digits⟩) known
  · cases same : DecimalLiteral.read (sign.text ++ body).length sign body with
    | error g =>
      rw [same] at failed
      cases failed
      rw [DecimalLiteral.read_kind same] at kind
      contradiction
    | ok =>
      rw [same] at failed
      cases failed

theorem DecimalLiteral.value_kind {d : DecimalLiteral} {f : Fault} (failed : d.value = .error f) :
    f.kind = .invalidNumber := by
  simp only [value, valueAt] at failed
  split at failed
  · contradiction
  · cases same : d.float _ with
    | error g =>
      rw [same] at failed
      cases failed
      rw [float_fault same, outOfRange]
    | ok =>
      rw [same] at failed
      cases failed

theorem Number.opensHex_of_decode {asText : Bool} {t : List UInt8} {f : Fault}
    (failed : decode asText t = .error f) (kind : f.kind = .invalidHex) : OpensHex t := by
  rw [decode_eq, decodeValidated] at failed
  split at failed
  · rename_i same
    cases failed
    exact Literal.opensHex_of_read same kind
  · rename_i l read
    obtain ⟨formed, rfl⟩ := Literal.read_eq_ok_iff.1 read
    split at failed
    · contradiction
    · cases l with
      | hex h => exact opensHex_text (HexLiteral.WellFormed.mark formed)
      | decimal d =>
        rw [DecimalLiteral.value_kind failed] at kind
        contradiction

theorem Number.decode_kept_iff {t : List UInt8} {v : Value} : decode true t = .ok v ↔
    t ∈ Numeral.number.matches' ∧ ∃ s, v = .literal s ∧ Utf8.ofString s = t := by
  rw [Numeral.mem_number]
  constructor
  · intro h
    obtain ⟨l, formed, same, kept⟩ := decode_eq_ok_iff.1 h
    exact ⟨⟨l, formed, same⟩, literalText t, (Except.ok.inj kept).symm, ofString_literalText h⟩
  · rintro ⟨⟨l, formed, same⟩, s, rfl, bytes⟩
    have kept : decode true t = .ok (.literal (literalText t)) :=
      decode_eq_ok_iff.2 ⟨l, formed, same, rfl⟩
    rw [kept, Utf8.ofString_inj.1 (bytes.trans (ofString_literalText kept).symm)]

/-- A text is kept as a literal when it matches the expression for numbers, and it is kept as it is.
Decoding accepts no other texts. What is rejected is an invalid number, or an invalid hex literal if it
opens like one, and a digit alone gives what it gives when it is read in full. -/
theorem Number.decode_numeral (t : List UInt8) :
    (∀ v, decode true t = .ok v ↔
      t ∈ Numeral.number.matches' ∧ ∃ s, v = .literal s ∧ Utf8.ofString s = t) ∧
    (∀ v, decode false t = .ok v → t ∈ Numeral.number.matches') ∧
    (∀ asText f, decode asText t = .error f →
      f.kind = .invalidNumber ∨ f.kind = .invalidHex ∧ OpensHex t) ∧
    ∀ asText, decode asText t = decodeValidated asText t := by
  refine ⟨fun v => decode_kept_iff, fun v h => ?_, fun asText f failed => ?_, fun asText => ?_⟩
  · exact (decode_kept_iff.1 (decode_kept h)).1
  · rcases (decode_inLiteral failed).kind with number | hex
    · exact .inl number
    · exact .inr ⟨hex, opensHex_of_decode failed hex⟩
  · exact decode_eq asText t

/-- A sign, no digit before the point and a signed exponent. -/
example : Utf8.ofString "-.5E+07" ∈ Numeral.number.matches' :=
  (RegularExpression.rmatch_iff_matches' _ _).1 (by decide +kernel)

end JsonTree
