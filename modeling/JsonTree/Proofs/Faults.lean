import JsonTree.Proofs.Parsing

/-!
Where faults lie in the piece that shows them. A fault of a number lies in its literal or at the end
of it; every other fault lies in the text that is left or at the end of that.
-/
namespace JsonTree

namespace Fault

/-- A fault of a literal. At the end of the literal a hex digit is missing only after the letter. -/
structure InLiteral (t : List UInt8) (f : Fault) : Prop where
  kind : f.kind = .invalidNumber ∨ f.kind = .invalidHex
  index : f.index ≤ t.length
  hex : f.kind = .invalidHex → f.index = t.length →
    ∃ b ∈ t.getLast?, b = Byte.lowerX ∨ b = Byte.upperX

theorem inLiteral_of_le {t : List UInt8} {index : Nat} (h : index ≤ t.length) :
    InLiteral t ⟨.invalidNumber, index⟩ :=
  ⟨.inl rfl, h, by simp⟩

theorem inLiteral_of_lt {t : List UInt8} {kind : ErrorKind} {index : Nat}
    (number : kind = .invalidNumber ∨ kind = .invalidHex) (h : index < t.length) :
    InLiteral t ⟨kind, index⟩ :=
  ⟨number, Nat.le_of_lt h, fun _ same => absurd same (Nat.ne_of_lt h)⟩

end Fault

theorem HexLiteral.read_inLiteral {h : HexLiteral} {f : Fault}
    (letter : h.mark = Byte.lowerX ∨ h.mark = Byte.upperX)
    (failed : read h.text.length h.sign h.mark h.digits = .error f) : f.InLiteral h.text := by
  unfold read at failed
  split at failed
  · rename_i b left misplaced
    cases failed
    have inside : 0 < h.text.length := List.length_pos_iff.2 (by simp [text])
    refine Fault.inLiteral_of_lt ?_ (Nat.sub_lt inside (Nat.succ_pos _))
    split
    · exact .inl rfl
    · exact .inr rfl
  · split at failed
    · rename_i missing
      cases failed
      refine ⟨.inr rfl, Nat.le_refl _, fun _ _ => ⟨h.mark, ?_, letter⟩⟩
      simp [text, List.isEmpty_iff.1 missing]
    · contradiction

theorem DecimalLiteral.read_inLiteral {sign : Sign} {body : List UInt8} {f : Fault}
    (failed : read (sign.text ++ body).length sign body = .error f) :
    f.InLiteral (sign.text ++ body) := by
  have reading := read_reading (sign.text ++ body).length sign body
  rw [failed] at reading
  cases reading with
  | noDigit => exact Fault.inLiteral_of_le (Nat.sub_le _ _)
  | misplaced => exact Fault.inLiteral_of_le (Nat.sub_le _ _)
  | noPower => exact Fault.inLiteral_of_le (Nat.le_refl _)
  | @leadingZero d several =>
    have inside : 1 < d.body.length := by simp [DecimalLiteral.body]; omega
    refine Fault.inLiteral_of_le ?_
    rw [List.length_append]
    omega

theorem DecimalLiteral.float_fault {d : DecimalLiteral} {exponent : Int} {f : Fault}
    (failed : d.float exponent = .error f) : f = d.outOfRange := by
  simp only [float] at failed
  split at failed
  · contradiction
  · split at failed
    · cases failed; rfl
    · split at failed
      · contradiction
      · cases failed; rfl

theorem DecimalLiteral.outOfRange_inLiteral (d : DecimalLiteral) :
    d.outOfRange.InLiteral d.text := by
  unfold outOfRange
  split
  · exact Fault.inLiteral_of_le (by simp [text])
  · exact Fault.inLiteral_of_le (Nat.zero_le _)

namespace Literal

theorem read_inLiteral {bytes : List UInt8} {f : Fault} (failed : read bytes = .error f) :
    f.InLiteral bytes := by
  obtain ⟨sign, body, split⟩ : ∃ sign body, Sign.split bytes = (sign, body) := ⟨_, _, rfl⟩
  have parts := Sign.text_split bytes
  simp only [read, split] at failed parts
  subst parts
  split at failed
  · rename_i mark digits found
    obtain ⟨rfl, letter⟩ := HexLiteral.split?_eq_some_iff.1 found
    cases same : HexLiteral.read (sign.text ++ Byte.zero :: mark :: digits).length sign mark digits with
    | error g =>
      rw [same] at failed
      cases failed
      exact HexLiteral.read_inLiteral (h := ⟨sign, mark, digits⟩) letter same
    | ok =>
      rw [same] at failed
      cases failed
  · cases same : DecimalLiteral.read (sign.text ++ body).length sign body with
    | error g =>
      rw [same] at failed
      cases failed
      exact DecimalLiteral.read_inLiteral same
    | ok =>
      rw [same] at failed
      cases failed

theorem value_inLiteral {l : Literal} {f : Fault} (formed : l.WellFormed)
    (failed : l.value = .error f) : f.InLiteral l.text := by
  cases l with
  | hex h =>
    simp only [value, HexLiteral.value] at failed
    split at failed
    · contradiction
    · cases failed
      have digits := List.length_pos_iff.2 (HexLiteral.WellFormed.some_digit formed)
      refine Fault.inLiteral_of_lt (.inr rfl) ?_
      simp [text, HexLiteral.text]
      omega
  | decimal d =>
    simp only [value, DecimalLiteral.value, DecimalLiteral.valueAt] at failed
    split at failed
    · contradiction
    · cases same : d.float _ with
      | error g =>
        rw [same] at failed
        cases failed
        rw [DecimalLiteral.float_fault same]
        exact d.outOfRange_inLiteral
      | ok =>
        rw [same] at failed
        cases failed

end Literal

theorem Number.decode_inLiteral {asText : Bool} {t : List UInt8} {f : Fault}
    (failed : decode asText t = .error f) : f.InLiteral t := by
  rw [decode_eq, decodeValidated] at failed
  split at failed
  · rename_i same
    cases failed
    exact Literal.read_inLiteral same
  · rename_i l read
    obtain ⟨formed, rfl⟩ := Literal.read_eq_ok_iff.1 read
    split at failed
    · contradiction
    · exact Literal.value_inLiteral formed failed

/-- The kinds of failure that a string shows. -/
def ErrorKind.isInString : ErrorKind → Bool
  | truncatedEscape | unpairedSurrogate | invalidHex | nulInString | unknownEscape | invalidUtf8
  | endOfInput => true
  | _ => false

namespace Fault

/-- A fault of anything but a number. A missing hex digit comes after another or after an escape's
letter, so it is not mistaken for one of a hex literal. -/
def InText (text : List UInt8) (f : Fault) : Prop :=
  f.kind ≠ .invalidNumber ∧ ∃ before left, text = before ++ left ∧ f.index = before.length ∧
    (f.kind = .invalidHex → ∃ b ∈ before.getLast?, b ≠ Byte.lowerX ∧ b ≠ Byte.upperX)

variable {text : List UInt8} {f : Fault}

theorem inText_of_le {kind : ErrorKind} {index : Nat} (number : kind ≠ .invalidNumber)
    (hex : kind ≠ .invalidHex) (h : index ≤ text.length) : InText text ⟨kind, index⟩ :=
  ⟨number, text.take index, text.drop index, (List.take_append_drop _ _).symm, by simp [h],
    fun same => absurd same hex⟩

theorem InText.shift (h : f.InText text) (before : List UInt8) :
    (f.shift before.length).InText (before ++ text) := by
  obtain ⟨number, inner, left, rfl, index, hex⟩ := h
  refine ⟨number, before ++ inner, left, by simp, by simp [Fault.shift, index, Nat.add_comm], ?_⟩
  intro same
  obtain ⟨b, last, other⟩ := hex same
  exact ⟨b, by simp [List.getLast?_append, Option.mem_def.1 last], other⟩

theorem InText.append (h : f.InText text) (more : List UInt8) : f.InText (text ++ more) := by
  obtain ⟨number, inner, left, rfl, index, hex⟩ := h
  exact ⟨number, inner, left ++ more, by simp, index, hex⟩

/-- A fault of a string, which has kinds of its own. -/
structure InString (text : List UInt8) (f : Fault) : Prop where
  kind : f.kind.isInString
  inText : f.InText text

theorem inString_of_le {kind : ErrorKind} {index : Nat} (string : kind.isInString)
    (hex : kind ≠ .invalidHex) (h : index ≤ text.length) : InString text ⟨kind, index⟩ := by
  have number : kind ≠ .invalidNumber := by
    rintro rfl
    contradiction
  exact ⟨string, inText_of_le number hex h⟩

theorem InString.shift (h : f.InString text) (before : List UInt8) :
    (f.shift before.length).InString (before ++ text) :=
  ⟨h.kind, h.inText.shift before⟩

theorem InString.append (h : f.InString text) (more : List UInt8) : f.InString (text ++ more) :=
  ⟨h.kind, h.inText.append more⟩

end Fault

namespace Escape

theorem unit_inString {text : List UInt8} {f : Fault} (failed : unit text = .error f) :
    (f.shift 1).InString (Byte.lowerU :: text) := by
  simp only [unit] at failed
  split at failed
  · cases failed
    exact Fault.inString_of_le (by decide) (by decide) (by simp)
  · split at failed
    · rename_i k found
      cases failed
      obtain ⟨inside, _, before⟩ := List.findIdx?_eq_some_iff_getElem.1 found
      rw [List.length_take] at inside
      have digits : ∀ b ∈ text.take k, Byte.isHexDigit b := by
        intro b hb
        obtain ⟨i, hi, rfl⟩ := List.mem_iff_getElem.1 hb
        rw [List.length_take] at hi
        simpa using before i (by omega)
      refine ⟨rfl, by simp [Fault.shift], Byte.lowerU :: text.take k, text.drop k, by simp, ?_, fun _ => ?_⟩
      · simp [Fault.shift]
        omega
      · refine ⟨_, List.getLast?_eq_some_getLast (List.cons_ne_nil _ _), ?_⟩
        rcases List.mem_cons.1 (List.getLast_mem (List.cons_ne_nil Byte.lowerU (text.take k))) with
          same | digit
        · rw [same]; decide
        · exact Byte.isHexDigit_ne_mark (digits _ digit)
    · contradiction

theorem length_of_unit {text : List UInt8} {c : UInt32} (h : unit text = .ok c) :
    4 ≤ text.length := by
  simp only [unit] at h
  split at h
  · contradiction
  · rename_i enough
    rw [List.length_take] at enough
    omega

theorem codePoint_inString {text : List UInt8} {f : Fault} (failed : codePoint text = .error f) :
    (f.shift 1).InString (Byte.lowerU :: text) := by
  unfold codePoint at failed
  split at failed
  · rename_i same
    cases failed
    exact unit_inString same
  · rename_i read
    have four := length_of_unit read
    split at failed
    · cases failed
      exact Fault.inString_of_le (by decide) (by decide) (by simp)
    · split at failed
      · contradiction
      · split at failed
        · rename_i second following
          have parts := List.take_append_drop 4 text
          rw [following] at parts
          have six : (Byte.lowerU :: text.take 4 ++ [Byte.backslash]).length = 6 := by simp [four]
          split at failed
          · rename_i f same
            cases failed
            have inside := (unit_inString same).shift (Byte.lowerU :: text.take 4 ++ [Byte.backslash])
            rw [six] at inside
            rw [← parts]
            simpa [Fault.shift] using inside
          · split at failed
            · contradiction
            · cases failed
              refine Fault.inString_of_le (by decide) (by decide) ?_
              rw [← parts]
              simp [four]
              omega
        · cases failed
          exact Fault.inString_of_le (by decide) (by decide) (by simpa using four)

theorem read_inString {text : List UInt8} {f : Fault} (failed : read text = .error f) :
    f.InString text := by
  unfold read at failed
  split at failed
  · cases failed
    exact Fault.inString_of_le (by decide) (by decide) (by simp)
  · split at failed
    · rename_i letter
      subst letter
      split at failed
      · rename_i same
        cases failed
        exact codePoint_inString same
      · contradiction
    · split at failed
      · contradiction
      · cases failed
        exact Fault.inString_of_le (by decide) (by decide) (by simp)

theorem codePoint_le {text : List UInt8} {c : UInt32} {n : Nat}
    (h : codePoint text = .ok (c, n)) : n ≤ text.length := by
  unfold codePoint at h
  split at h
  · contradiction
  · rename_i read
    have four := length_of_unit read
    split at h
    · contradiction
    · split at h
      · cases h
        exact four
      · split at h
        · rename_i second following
          split at h
          · contradiction
          · rename_i more
            split at h
            · cases h
              have left := congrArg List.length following
              have last := length_of_unit more
              simp only [List.length_drop, List.length_cons] at left
              omega
            · contradiction
        · contradiction

theorem read_le {text bytes : List UInt8} {n : Nat} (h : read text = .ok (bytes, n)) :
    n ≤ text.length := by
  unfold read at h
  split at h
  · contradiction
  · split at h
    · split at h
      · contradiction
      · rename_i point
        cases h
        exact Nat.succ_le_succ (codePoint_le point)
    · split at h
      · cases h
        exact Nat.succ_le_succ (Nat.zero_le _)
      · contradiction

theorem unescape_inString {index : Nat} {done body : List UInt8} {f : Fault}
    (failed : unescape index done body = .error f) :
    ∃ g : Fault, g.InString body ∧ f = g.shift index := by
  fun_induction unescape index done body with
  | case1 => contradiction
  | case2 index done rest f' same =>
    cases failed
    have inside := (read_inString same).shift [Byte.backslash]
    exact ⟨_, inside, by simp [Fault.shift]; omega⟩
  | case3 index done rest bytes n read ih =>
    obtain ⟨g, inside, rfl⟩ := ih failed
    have taken := inside.shift (Byte.backslash :: rest.take n)
    rw [List.cons_append, List.take_append_drop] at taken
    have length : (Byte.backslash :: rest.take n).length = n + 1 := by simp [read_le read]
    exact ⟨_, taken, by rw [length]; simp [Fault.shift]; omega⟩
  | case4 index done b rest _ ih =>
    obtain ⟨g, inside, rfl⟩ := ih failed
    exact ⟨_, inside.shift [b], by simp [Fault.shift]; omega⟩

end Escape

namespace Quoted

theorem bodyLength_inString {passed : Nat} {escaped : Bool} {bytes : List UInt8} {f : Fault}
    (failed : bodyLength passed escaped bytes = .error f) :
    ∃ g : Fault, g.InString bytes ∧ f = g.shift passed := by
  have next : ∀ {passed b rest}, (∃ g : Fault, g.InString rest ∧ f = g.shift (passed + 1)) →
      ∃ g : Fault, g.InString (b :: rest) ∧ f = g.shift passed := by
    rintro passed b rest ⟨g, inside, rfl⟩
    exact ⟨_, inside.shift [b], by simp [Fault.shift]; omega⟩
  have here : ∀ {kind passed bytes}, kind.isInString → kind ≠ .invalidHex →
      ∃ g : Fault, g.InString bytes ∧ Fault.mk kind passed = g.shift passed :=
    fun string hex => ⟨_, Fault.inString_of_le string hex (Nat.zero_le _), by simp [Fault.shift]⟩
  fun_induction bodyLength passed escaped bytes with
  | case1 => cases failed; exact here (by decide) (by decide)
  | case2 _ _ _ ih => exact next (ih failed)
  | case3 _ _ _ _ ih => exact next (ih failed)
  | case4 => contradiction
  | case5 => cases failed; exact here (by decide) (by decide)
  | case6 _ _ _ _ _ _ _ _ ih => exact next (ih failed)

theorem decode_inString {body : List UInt8} {f : Fault} (failed : decode body = .error f) :
    f.InString body := by
  simp only [decode] at failed
  split at failed
  · rename_i invalid
    cases failed
    exact Fault.inString_of_le (by decide) (by decide) (Nat.le_of_lt invalid)
  · split at failed
    · rename_i same
      cases failed
      obtain ⟨g, inside, rfl⟩ := Escape.unescape_inString same
      exact inside
    · split at failed
      · cases failed
        exact Fault.inString_of_le (by decide) (by decide) (Nat.zero_le _)
      · contradiction

theorem read_inString {input : Input} {e : ParseError} (failed : read input = .error e) :
    ∃ f : Fault, f.InString (input.skip 1).bytes ∧ e = f.locate (input.skip 1) := by
  simp only [read] at failed
  split at failed
  · rename_i same
    cases failed
    obtain ⟨g, inside, rfl⟩ := bodyLength_inString same
    exact ⟨_, inside, rfl⟩
  · rename_i n _
    split at failed
    · rename_i same
      cases failed
      have inside := (decode_inString same).append ((input.skip 1).bytes.drop n)
      rw [List.take_append_drop] at inside
      exact ⟨_, inside, rfl⟩
    · contradiction

end Quoted

theorem Document.keyword_inText {word : List UInt8} {v : Value} {mismatch : ErrorKind}
    (kind : mismatch = .invalidBool ∨ mismatch = .invalidNull) {input : Input} {e : ParseError}
    (failed : keyword word v mismatch input = .error e) :
    ∃ f : Fault, f.InText input.bytes ∧ e = f.locate input := by
  simp only [keyword] at failed
  split at failed
  · cases failed
    exact ⟨⟨.truncatedKeyword, 0⟩, Fault.inText_of_le (by decide) (by decide) (Nat.zero_le _), rfl⟩
  · split at failed
    · rename_i k found
      cases failed
      obtain ⟨inside, _⟩ := List.findIdx?_eq_some_iff_getElem.1 found
      rw [List.length_zip, List.length_take] at inside
      refine ⟨_, Fault.inText_of_le ?_ ?_ (by omega), rfl⟩
      · rcases kind with rfl | rfl <;> decide
      · rcases kind with rfl | rfl <;> decide
    · contradiction

end JsonTree
