import JsonTree.Number.Literal
import JsonTree.Proofs.Bytes
import Mathlib.Tactic.MkIffOfInductiveProp

/-!
Which literals there are. Reading a literal inverts writing its text, and what is read are the
well-formed literals.
-/
namespace JsonTree

namespace Sign

theorem text_split (bytes : List UInt8) : (split bytes).1.text ++ (split bytes).2 = bytes := by
  unfold split
  split
  · rfl
  · rename_i b rest
    split
    · rename_i same
      rw [same]; rfl
    · split
      · rename_i same
        rw [same]; rfl
      · rfl

/-- A body that opens with a sign of its own needs one before it. -/
theorem split_text {sign : Sign} {body : List UInt8}
    (unsigned : ∀ b ∈ body.head?, b ≠ Byte.minus ∧ b ≠ Byte.plus) :
    split (sign.text ++ body) = (sign, body) := by
  cases sign with
  | plus | minus => rfl
  | none =>
    cases body with
    | nil => rfl
    | cons b rest =>
      obtain ⟨minus, plus⟩ := unsigned b rfl
      simp [split, text, minus, plus]

/-- Without a sign in front, none comes first. -/
theorem head_of_split {bytes left : List UInt8} (h : split bytes = (.none, left)) :
    ∀ b ∈ left.head?, b ≠ Byte.minus ∧ b ≠ Byte.plus := by
  unfold split at h
  split at h
  · cases h
    simp
  · split at h
    · cases h
    · split at h
      · cases h
      · cases h
        rintro _ ⟨⟩
        exact ⟨‹_›, ‹_›⟩

theorem isLiteral_text (sign : Sign) : ∀ b ∈ sign.text, Byte.isLiteral b := by
  cases sign with
  | none => exact List.forall_mem_nil _
  | plus => exact List.forall_mem_singleton.2 (by decide)
  | minus => exact List.forall_mem_singleton.2 (by decide)

end Sign

@[mk_iff]
structure Exponent.WellFormed (e : Exponent) : Prop where
  mark : e.mark = Byte.lowerE ∨ e.mark = Byte.upperE
  some_digit : e.digits ≠ []
  digits : ∀ b ∈ e.digits, Byte.isDigit b

@[mk_iff]
structure DecimalLiteral.WellFormed (d : DecimalLiteral) : Prop where
  some_digit : d.whole ≠ [] ∨ d.fraction ≠ []
  whole : ∀ b ∈ d.whole, Byte.isDigit b
  unpadded : d.whole.head? = some Byte.zero → d.whole.length = 1
  pointed : d.fraction ≠ [] → d.point = true
  fraction : ∀ b ∈ d.fraction, Byte.isDigit b
  exponent : ∀ e ∈ d.exponent, e.WellFormed

@[mk_iff]
structure HexLiteral.WellFormed (h : HexLiteral) : Prop where
  mark : h.mark = Byte.lowerX ∨ h.mark = Byte.upperX
  some_digit : h.digits ≠ []
  digits : ∀ b ∈ h.digits, Byte.isHexDigit b

instance : DecidablePred Exponent.WellFormed :=
  fun e => decidable_of_iff' _ (Exponent.wellFormed_iff e)

instance : DecidablePred DecimalLiteral.WellFormed :=
  fun d => decidable_of_iff' _ (DecimalLiteral.wellFormed_iff d)

instance : DecidablePred HexLiteral.WellFormed :=
  fun h => decidable_of_iff' _ (HexLiteral.wellFormed_iff h)

def Literal.WellFormed : Literal → Prop
  | hex h => h.WellFormed
  | decimal d => d.WellFormed

namespace HexLiteral

def body (h : HexLiteral) : List UInt8 := Byte.zero :: h.mark :: h.digits

theorem isMisplaced_of_isHexDigit {b : UInt8} (h : Byte.isHexDigit b) :
    isMisplaced b = false := by
  revert b
  decide +kernel

theorem split?_eq_some_iff {body digits : List UInt8} {mark : UInt8} :
    split? body = some (mark, digits) ↔
      body = Byte.zero :: mark :: digits ∧ (mark = Byte.lowerX ∨ mark = Byte.upperX) := by
  constructor
  · intro h
    unfold split? at h
    split at h
    · split at h
      · rename_i opens
        simp only [Bool.and_eq_true, Bool.or_eq_true, decide_eq_true_eq] at opens
        cases h
        exact ⟨by rw [opens.1], opens.2⟩
      · contradiction
    · contradiction
  · rintro ⟨rfl, mark⟩
    simp [split?, mark]

theorem read_eq_ok_iff {length : Nat} {sign : Sign} {mark : UInt8} {digits : List UInt8}
    {h : HexLiteral} : read length sign mark digits = .ok h ↔
      h = ⟨sign, mark, digits⟩ ∧ digits ≠ [] ∧ ∀ b ∈ digits, Byte.isHexDigit b := by
  rw [← List.dropWhile_eq_nil_iff, read]
  split
  · rename_i left
    simp [left]
  · rename_i left
    cases digits with
    | nil => simp
    | cons b rest => simp [left, eq_comm]

theorem WellFormed.split?_body {h : HexLiteral} (formed : h.WellFormed) :
    split? h.body = some (h.mark, h.digits) :=
  split?_eq_some_iff.2 ⟨rfl, formed.mark⟩

end HexLiteral

namespace Exponent

theorem split_text {exponent : Option Exponent} (h : ∀ e ∈ exponent, e.WellFormed) :
    split ((exponent.map text).getD []) = (exponent, []) := by
  cases exponent with
  | none => rfl
  | some e =>
    obtain ⟨mark, some_digit, digits⟩ := h e rfl
    have unsigned : ∀ b ∈ e.digits.head?, b ≠ Byte.minus ∧ b ≠ Byte.plus :=
      fun b hb => Byte.isDigit_ne (digits b (List.mem_of_mem_head? hb))
    have taken := List.takeWhile_eq_self_iff.2 digits
    have left := List.dropWhile_eq_nil_iff.2 digits
    simp [split, text, mark, Sign.split_text unsigned, taken, left]

theorem eq_of_split {bytes left : List UInt8} {exponent : Option Exponent}
    (h : split bytes = (exponent, left)) :
    bytes = (exponent.map text).getD [] ++ left ∧
      ∀ e ∈ exponent, e.digits ≠ [] → e.WellFormed := by
  unfold split at h
  split at h
  · cases h
    exact ⟨rfl, by simp⟩
  · rename_i b rest
    split at h
    · rename_i mark
      simp only [Bool.or_eq_true, decide_eq_true_eq] at mark
      have parts := Sign.text_split rest
      generalize Sign.split rest = signed at h parts
      cases h
      constructor
      · simp [text, ← parts]
      · rintro e ⟨⟩ some_digit
        exact ⟨mark, some_digit, fun _ => List.mem_takeWhile_imp⟩
    · cases h
      exact ⟨rfl, by simp⟩

end Exponent

namespace DecimalLiteral

def exponentText (d : DecimalLiteral) : List UInt8 := (d.exponent.map Exponent.text).getD []

/-- All after the sign. -/
def body (d : DecimalLiteral) : List UInt8 :=
  d.whole ++ (if d.point then [Byte.point] else []) ++ d.fraction ++ d.exponentText

theorem text_eq (d : DecimalLiteral) : d.text = d.sign.text ++ d.body := by
  simp [text, significandText, body, exponentText]

/-- How reading can end, by what the bytes after the sign are. -/
inductive Reading (length : Nat) (sign : Sign) : List UInt8 → Except Fault DecimalLiteral → Prop where
  | noDigit {point : Bool} {left : List UInt8} :
      Reading length sign ((if point then [Byte.point] else []) ++ left)
        (.error ⟨.invalidNumber, length - left.length⟩)
  | misplaced {d : DecimalLiteral} {left : List UInt8} : left ≠ [] →
      Reading length sign (d.body ++ left) (.error ⟨.invalidNumber, length - left.length⟩)
  | noPower {d : DecimalLiteral} {e : Exponent} : d.exponent = some e → e.digits = [] →
      Reading length sign d.body (.error ⟨.invalidNumber, length⟩)
  | leadingZero {d : DecimalLiteral} : 1 < d.whole.length →
      Reading length sign d.body (.error ⟨.invalidNumber, length - d.body.length + 1⟩)
  | done {d : DecimalLiteral} : d.WellFormed → d.sign = sign → Reading length sign d.body (.ok d)

theorem length_of_unpadded {whole : List UInt8}
    (unpadded : ¬ (whole.length > 1 && whole.head? == some Byte.zero))
    (zero : whole.head? = some Byte.zero) : whole.length = 1 := by
  have several : ¬ 1 < whole.length := fun several => unpadded (by simpa [zero] using several)
  have some_whole := List.length_pos_of_mem (List.mem_of_mem_head? zero)
  exact Nat.le_antisymm (Nat.le_of_not_lt several) some_whole

/-- The parts that a body falls into, with what stands after the fraction and what is left at last. -/
structure Parts (sign : Sign) (body : List UInt8) (d : DecimalLiteral)
    (afterFraction left : List UInt8) : Prop where
  signed : d.sign = sign
  bytes : body = d.whole ++ ((if d.point then [Byte.point] else []) ++ (d.fraction ++ afterFraction))
  wholeDigits : ∀ b ∈ d.whole, Byte.isDigit b
  fractionDigits : ∀ b ∈ d.fraction, Byte.isDigit b
  unpointed : d.point = false → d.fraction = []
  stop : ∀ b ∈ afterFraction.head?, Byte.isDigit b = false ∧ (b = Byte.point → d.point)
  exponent : Exponent.split afterFraction = (d.exponent, left)

/-- A point is taken wherever it follows the first digits. -/
theorem exists_point {bytes : List UInt8} (stop : ∀ b ∈ bytes.head?, Byte.isDigit b = false) :
    ∃ point left, (bytes.head? == some Byte.point) = point ∧
      (if point then bytes.drop 1 else bytes) = left ∧
      bytes = (if point then [Byte.point] else []) ++ left ∧
      (point = false → ∀ b ∈ left.head?, Byte.isDigit b = false ∧ b ≠ Byte.point) := by
  by_cases point : bytes.head? = some Byte.point
  · obtain ⟨left, rfl⟩ := List.head?_eq_some_iff.1 point
    exact ⟨true, left, by simp, rfl, rfl, by simp⟩
  · refine ⟨false, bytes, by simpa using point, rfl, rfl, fun _ b hb => ⟨stop b hb, ?_⟩⟩
    rintro rfl
    exact point hb

theorem exists_parts (sign : Sign) (body : List UInt8) :
    ∃ d afterFraction left, Parts sign body d afterFraction left ∧ ∀ length, read length sign body =
      if d.whole.isEmpty && d.fraction.isEmpty then
        .error ⟨.invalidNumber, length - afterFraction.length⟩
      else if !left.isEmpty then .error ⟨.invalidNumber, length - left.length⟩
      else if d.exponent.any (·.digits.isEmpty) then .error ⟨.invalidNumber, length⟩
      else if d.whole.length > 1 && d.whole.head? == some Byte.zero then
        .error ⟨.invalidNumber, length - body.length + 1⟩
      else .ok d := by
  obtain ⟨whole, afterWhole, rfl, wholeDigits, wholeStop⟩ := Byte.exists_run Byte.isDigit body
  obtain ⟨point, afterPoint, pointed, dropped, bytes, pointless⟩ := exists_point wholeStop
  obtain ⟨fraction, afterFraction, rfl, fractionDigits, fractionStop⟩ :=
    Byte.exists_run Byte.isDigit afterPoint
  have unpointed : point = false → fraction = [] := by
    intro absent
    cases fraction with
    | nil => rfl
    | cons b more =>
      have digit := fractionDigits b (by simp)
      rw [(pointless absent b rfl).1] at digit
      contradiction
  have stop : ∀ b ∈ afterFraction.head?, Byte.isDigit b = false ∧ (b = Byte.point → point) := by
    refine fun b hb => ⟨fractionStop b hb, fun same => ?_⟩
    by_contra absent
    rw [Bool.not_eq_true] at absent
    obtain rfl := unpointed absent
    exact (pointless absent b hb).2 same
  refine ⟨⟨sign, whole, point, fraction, (Exponent.split afterFraction).1⟩, afterFraction,
    (Exponent.split afterFraction).2,
    ⟨rfl, by rw [bytes], wholeDigits, fractionDigits, unpointed, stop, rfl⟩, fun length => ?_⟩
  simp only [read, Byte.takeWhile_run wholeDigits wholeStop,
    Byte.dropWhile_run wholeDigits wholeStop, pointed, dropped,
    Byte.takeWhile_run fractionDigits fractionStop, Byte.dropWhile_run fractionDigits fractionStop]

theorem read_reading (length : Nat) (sign : Sign) (body : List UInt8) :
    Reading length sign body (read length sign body) := by
  obtain ⟨d, afterFraction, left, parts, read⟩ := exists_parts sign body
  obtain ⟨tail, powers⟩ := Exponent.eq_of_split parts.exponent
  rw [read]
  -- From here on the branches of the reader are taken one by one.
  split
  · rename_i none_given
    simp only [Bool.and_eq_true, List.isEmpty_iff] at none_given
    rw [parts.bytes, none_given.1, none_given.2]
    exact .noDigit
  · rename_i given
    have body_eq : body = d.body ++ left := by
      simp [parts.bytes, DecimalLiteral.body, exponentText, tail]
    have some_digit : d.whole ≠ [] ∨ d.fraction ≠ [] := by
      simpa [← not_and_or] using given
    rw [body_eq]
    split
    · rename_i some_left
      exact .misplaced (by simpa using some_left)
    · rename_i none_left
      obtain rfl : left = [] := by simpa using none_left
      rw [List.append_nil]
      split
      · rename_i missing
        cases power : d.exponent with
        | none => simp [power] at missing
        | some e => exact .noPower power (by simpa [power] using missing)
      · rename_i powered
        split
        · rename_i padded
          simp only [Bool.and_eq_true, decide_eq_true_eq] at padded
          exact .leadingZero padded.1
        · rename_i unpadded
          have point : d.fraction ≠ [] → d.point = true := fun some_digit =>
            Bool.of_not_eq_false fun absent => some_digit (parts.unpointed absent)
          refine .done ⟨some_digit, parts.wholeDigits, length_of_unpadded unpadded, point,
            parts.fractionDigits, fun e he => ?_⟩ parts.signed
          have power : d.exponent = some e := he
          exact powers e he fun none_given => powered (by simp [power, none_given])

namespace WellFormed

variable {d : DecimalLiteral} (h : d.WellFormed)
include h

theorem head_exponentText :
    ∀ b ∈ d.exponentText.head?, b = Byte.lowerE ∨ b = Byte.upperE := by
  intro b hb
  unfold exponentText at hb
  cases same : d.exponent with
  | none => simp [same] at hb
  | some e =>
    obtain rfl : e.mark = b := by simpa [same, Exponent.text] using hb
    exact (h.exponent e same).mark

theorem exponentText_stop : ∀ b ∈ d.exponentText.head?, Byte.isDigit b = false := by
  intro b hb
  rcases h.head_exponentText b hb with rfl | rfl <;> decide

theorem fraction_eq_nil (unpointed : d.point = false) : d.fraction = [] := by
  by_contra some_fraction
  simp [h.pointed some_fraction] at unpointed

theorem mem_head_afterWhole : ∀ b ∈ ((if d.point then [Byte.point] else []) ++
    (d.fraction ++ d.exponentText)).head?, b = Byte.point ∨ b = Byte.lowerE ∨ b = Byte.upperE := by
  cases point : d.point with
  | true => rintro b ⟨⟩; exact .inl rfl
  | false =>
    rw [h.fraction_eq_nil point]
    exact fun b hb => .inr (h.head_exponentText b hb)

theorem afterWhole_stop : ∀ b ∈ ((if d.point then [Byte.point] else []) ++
    (d.fraction ++ d.exponentText)).head?, Byte.isDigit b = false := by
  intro b hb
  rcases h.mem_head_afterWhole b hb with rfl | rfl | rfl <;> decide

theorem head_afterWhole : (((if d.point then [Byte.point] else []) ++
    (d.fraction ++ d.exponentText)).head? == some Byte.point) = d.point := by
  cases point : d.point with
  | true => rfl
  | false =>
    have other : d.exponentText.head? ≠ some Byte.point := fun first => by
      rcases h.head_exponentText _ first with same | same <;> contradiction
    simpa [h.fraction_eq_nil point] using other

theorem head_body : ∃ b ∈ d.body.head?, Byte.isDigit b ∨ b = Byte.point := by
  cases whole : d.whole with
  | cons b more => exact ⟨b, by simp [body, whole], .inl (h.whole b (by simp [whole]))⟩
  | nil =>
    have some_fraction : d.fraction ≠ [] := h.some_digit.resolve_left (· whole)
    exact ⟨Byte.point, by simp [body, whole, h.pointed some_fraction], .inr rfl⟩

theorem isLiteral_exponentText : ∀ b ∈ d.exponentText, Byte.isLiteral b := by
  unfold exponentText
  cases same : d.exponent with
  | none => exact List.forall_mem_nil _
  | some e =>
    obtain ⟨letter, _, digits⟩ := h.exponent e same
    have mark : Byte.isLiteral e.mark := by
      rcases letter with same | same <;> rw [same] <;> decide
    simp only [Option.map_some, Option.getD_some, Exponent.text, List.cons_append,
      List.forall_mem_cons, List.forall_mem_append]
    exact ⟨mark, e.sign.isLiteral_text, fun b hb => Byte.isLiteral_of_isDigit (digits b hb)⟩

theorem isLiteral_body : ∀ b ∈ d.body, Byte.isLiteral b := by
  have point : ∀ b ∈ (if d.point then [Byte.point] else []), Byte.isLiteral b := by
    cases d.point with
    | false => exact List.forall_mem_nil _
    | true => exact List.forall_mem_singleton.2 (by decide)
  simp only [body, List.forall_mem_append]
  exact ⟨⟨⟨fun b hb => Byte.isLiteral_of_isDigit (h.whole b hb), point⟩,
    fun b hb => Byte.isLiteral_of_isDigit (h.fraction b hb)⟩, h.isLiteral_exponentText⟩

theorem split?_body : HexLiteral.split? d.body = none := by
  -- A zero that comes first is the only digit, and what follows it is no letter of a hex literal.
  cases same : HexLiteral.split? d.body with
  | none => rfl
  | some parts =>
    obtain ⟨opens, letter⟩ := HexLiteral.split?_eq_some_iff.1 same
    rw [body, List.append_assoc, List.append_assoc] at opens
    cases whole : d.whole with
    | nil =>
      rw [whole, List.nil_append] at opens
      have zero := h.afterWhole_stop Byte.zero (by rw [opens]; rfl)
      contradiction
    | cons b more =>
      rw [whole, List.cons_append, List.cons.injEq] at opens
      obtain ⟨rfl, others⟩ := opens
      have one := h.unpadded (by rw [whole]; rfl)
      rw [whole, List.length_cons, Nat.add_eq_right, List.length_eq_zero_iff] at one
      rw [one, List.nil_append] at others
      have mark := h.mem_head_afterWhole parts.1 (by rw [others]; rfl)
      exact absurd mark (by rcases letter with same | same <;> rw [same] <;> decide)

end WellFormed

theorem read_eq_ok_iff {length : Nat} {sign : Sign} {body : List UInt8} {d : DecimalLiteral} :
    read length sign body = .ok d ↔ d.WellFormed ∧ d.sign = sign ∧ d.body = body := by
  constructor
  · intro h
    have reading := read_reading length sign body
    rw [h] at reading
    cases reading with
    | done formed signed => exact ⟨formed, signed, rfl⟩
  · rintro ⟨formed, rfl, rfl⟩
    have dropped : (if d.point then ((if d.point then [Byte.point] else []) ++
        (d.fraction ++ d.exponentText)).drop 1 else (if d.point then [Byte.point] else []) ++
        (d.fraction ++ d.exponentText)) = d.fraction ++ d.exponentText := by
      cases d.point <;> rfl
    have given : ¬ (d.whole.isEmpty && d.fraction.isEmpty) := by
      simpa [← not_and_or] using formed.some_digit
    have powered : ¬ d.exponent.any (·.digits.isEmpty) := by
      cases same : d.exponent with
      | none => simp
      | some e => simpa using (formed.exponent e same).some_digit
    have unpadded : ¬ (d.whole.length > 1 && d.whole.head? == some Byte.zero) := by
      intro padded
      simp only [Bool.and_eq_true, decide_eq_true_eq, beq_iff_eq] at padded
      have one := formed.unpadded padded.2
      omega
    simp only [read, body, List.append_assoc,
      Byte.takeWhile_run formed.whole formed.afterWhole_stop,
      Byte.dropWhile_run formed.whole formed.afterWhole_stop, formed.head_afterWhole, dropped,
      Byte.takeWhile_run formed.fraction formed.exponentText_stop,
      Byte.dropWhile_run formed.fraction formed.exponentText_stop, if_neg given]
    have split : Exponent.split d.exponentText = (d.exponent, []) := Exponent.split_text formed.exponent
    simp only [split, if_neg powered, if_neg unpadded]
    rfl

end DecimalLiteral

namespace Literal

theorem read_eq_ok_iff {bytes : List UInt8} {l : Literal} :
    read bytes = .ok l ↔ l.WellFormed ∧ l.text = bytes := by
  constructor
  · intro h
    obtain ⟨sign, body, split⟩ : ∃ sign body, Sign.split bytes = (sign, body) := ⟨_, _, rfl⟩
    have parts := Sign.text_split bytes
    simp only [read, split] at h parts
    split at h
    · rename_i mark digits found
      obtain ⟨rfl, letter⟩ := HexLiteral.split?_eq_some_iff.1 found
      cases same : HexLiteral.read bytes.length sign mark digits with
      | error f => simp [same, Except.map] at h
      | ok h' =>
        simp only [same, Except.map, Except.ok.injEq] at h
        obtain ⟨rfl, some_digit, all⟩ := HexLiteral.read_eq_ok_iff.1 same
        subst h
        exact ⟨⟨letter, some_digit, all⟩, parts⟩
    · cases same : DecimalLiteral.read bytes.length sign body with
      | error f => simp [same, Except.map] at h
      | ok d =>
        simp only [same, Except.map, Except.ok.injEq] at h
        obtain ⟨formed, rfl, rfl⟩ := DecimalLiteral.read_eq_ok_iff.1 same
        subst h
        exact ⟨formed, (DecimalLiteral.text_eq d).trans parts⟩
  · rintro ⟨formed, rfl⟩
    cases l with
    | hex h =>
      have split : Sign.split h.text = (h.sign, h.body) :=
        Sign.split_text (by rintro b ⟨⟩; decide)
      have inner : HexLiteral.read h.text.length h.sign h.mark h.digits = .ok h :=
        HexLiteral.read_eq_ok_iff.2 ⟨rfl, formed.some_digit, formed.digits⟩
      simp only [read, text, split, formed.split?_body, inner, Except.map]
    | decimal d =>
      have split : Sign.split d.text = (d.sign, d.body) := by
        rw [DecimalLiteral.text_eq]
        refine Sign.split_text fun b hb => ?_
        obtain ⟨_, first, digit | rfl⟩ := formed.head_body <;>
          obtain rfl := Option.some.inj (first.symm.trans hb)
        · exact Byte.isDigit_ne digit
        · decide
      have inner : DecimalLiteral.read d.text.length d.sign d.body = .ok d :=
        DecimalLiteral.read_eq_ok_iff.2 ⟨formed, rfl, rfl⟩
      simp only [read, text, split, formed.split?_body, inner, Except.map]

theorem WellFormed.isLiteral {l : Literal} (h : l.WellFormed) : ∀ b ∈ l.text, Byte.isLiteral b := by
  cases l with
  | hex h' =>
    have mark : Byte.isLiteral h'.mark := by
      rcases HexLiteral.WellFormed.mark h with same | same <;> rw [same] <;> decide
    have digits := fun b hb => Byte.isLiteral_of_isHexDigit (HexLiteral.WellFormed.digits h b hb)
    simp only [text, HexLiteral.text, List.forall_mem_append, List.forall_mem_cons]
    exact ⟨Sign.isLiteral_text _, by decide, mark, digits⟩
  | decimal d =>
    rw [text, DecimalLiteral.text_eq, List.forall_mem_append]
    exact ⟨Sign.isLiteral_text _, DecimalLiteral.WellFormed.isLiteral_body h⟩

/-- A literal has no delimiter in it, so it is read as a whole wherever one follows. -/
theorem WellFormed.isInner {l : Literal} (h : l.WellFormed) : ∀ b ∈ l.text, Byte.IsInner b :=
  fun b hb => Byte.isInner_of_isLiteral (h.isLiteral b hb)

theorem WellFormed.head_text {l : Literal} (h : l.WellFormed) :
    ∃ b ∈ l.text.head?, Byte.startsNumber b := by
  have signed : ∀ {sign : Sign} {body : List UInt8}, (∃ b ∈ body.head?, Byte.startsNumber b) →
      ∃ b ∈ (sign.text ++ body).head?, Byte.startsNumber b := by
    intro sign body first
    cases sign with
    | none => exact first
    | plus => exact ⟨Byte.plus, rfl, by decide⟩
    | minus => exact ⟨Byte.minus, rfl, by decide⟩
  cases l with
  | hex h => exact signed ⟨Byte.zero, rfl, by decide⟩
  | decimal d =>
    rw [text, DecimalLiteral.text_eq]
    obtain ⟨b, first, digit | rfl⟩ := DecimalLiteral.WellFormed.head_body h
    · exact signed ⟨b, first, by simp [Byte.startsNumber, digit]⟩
    · exact signed ⟨_, first, by decide⟩

end Literal

end JsonTree
