import JsonTree.Proofs.Spelling

/-!
The quoted form of a text denotes that text. Each character is written as plain bytes or as one
escape, which is one of the ways to spell it, and no control character is written as it is.
-/
namespace JsonTree

open Grammar

namespace Quoted

/-- The letters that the writer escapes characters with. -/
def letters : List (Char × Char) :=
  [('"', '"'), ('\\', '\\'), ('b', '\x08'), ('f', '\x0C'), ('n', '\n'), ('r', '\r'), ('t', '\t')]

/-- How the writer spells a character: as itself, by a letter, or by four hex digits. -/
inductive Spelled (c : Char) : List Char → Prop where
  | plain : c ≠ '"' → c ≠ '\\' → 0x20 ≤ c.toNat → Spelled c [c]
  | letter {l : Char} : (l, c) ∈ letters → Spelled c ['\\', l]
  | control : c.toNat < 0x20 →
      Spelled c ['\\', 'u', '0', '0', (c.toNat / 16).digitChar, (c.toNat % 16).digitChar]

theorem spelled_encodeChar (c : Char) : Spelled c (encodeChar c) := by
  have letter : ∀ l : Char, (l, c) ∈ letters → Spelled c ['\\', l] := fun _ => .letter
  unfold encodeChar
  split
  · subst c
    exact letter '"' (by decide)
  · split
    · subst c
      exact letter '\\' (by decide)
    · split
      · subst c
        exact letter 'b' (by decide)
      · split
        · subst c
          exact letter 'f' (by decide)
        · split
          · subst c
            exact letter 'n' (by decide)
          · split
            · subst c
              exact letter 'r' (by decide)
            · split
              · subst c
                exact letter 't' (by decide)
              · split
                · exact .control ‹_›
                · exact .plain ‹_› ‹_› (by omega)

theorem charText_encodeChar (c : Char) : CharText (Utf8.ofChars (encodeChar c)) c := by
  have known : ∀ p ∈ letters, p ∈ escapeLetters ∧
      Utf8.ofChars ['\\', p.1] = [Byte.backslash, p.1.toUInt8] := by decide +kernel
  -- There are few enough control characters to check them all.
  have digits : ∀ n : Fin 0x20,
      (Utf8.ofChars ['0', '0', (n.val / 16).digitChar, (n.val % 16).digitChar]).length = 4 ∧
      (∀ b ∈ Utf8.ofChars ['0', '0', (n.val / 16).digitChar, (n.val % 16).digitChar],
        Byte.isHexDigit b) ∧
      n.val = Byte.hexNumber (Utf8.ofChars
        ['0', '0', (n.val / 16).digitChar, (n.val % 16).digitChar]) := by decide +kernel
  have spelled := spelled_encodeChar c
  generalize encodeChar c = text at spelled
  cases spelled with
  | plain unquoted other high =>
    rw [Utf8.ofChars, List.flatMap_singleton]
    exact .raw unquoted other
  | letter member =>
    obtain ⟨known, bytes⟩ := known _ member
    rw [bytes]
    exact .escape (.letter known)
  | control low =>
    obtain ⟨four, hex, value⟩ := digits ⟨c.toNat, low⟩
    exact .escape (.unit ⟨four, hex, value⟩)

/-- No control character is written as it is. -/
theorem le_of_mem_encodeChar {c d : Char} (h : d ∈ encodeChar c) : 0x20 ≤ d.toNat := by
  have known : ∀ p ∈ letters, 0x20 ≤ p.1.toNat := by decide
  have start : ∀ p ∈ ['\\', 'u', '0', '0'].map Char.toNat, 0x20 ≤ p := by decide
  have digit : ∀ n < 16, 0x20 ≤ n.digitChar.toNat := by decide
  have spelled := spelled_encodeChar c
  generalize encodeChar c = text at spelled h
  cases spelled with
  | plain _ _ high => exact List.mem_singleton.1 h ▸ high
  | letter member =>
    rcases List.mem_cons.1 h with rfl | h
    · decide
    · exact List.mem_singleton.1 h ▸ known _ member
  | control low =>
    rcases List.mem_append.1 (show d ∈ ['\\', 'u', '0', '0'] ++ _ from h) with h | h
    · exact start _ (List.mem_map_of_mem h)
    · rcases List.mem_cons.1 h with rfl | h
      · exact digit _ (by omega)
      · exact List.mem_singleton.1 h ▸ digit _ (by omega)

theorem charsText_encode (text : List Char) :
    CharsText (Utf8.ofChars (text.flatMap encodeChar)) text := by
  induction text with
  | nil => exact .nil
  | cons c text ih =>
    rw [List.flatMap_cons, Utf8.ofChars_append]
    exact .cons (charText_encodeChar c) ih

theorem body_encode (text : List Char) : Body (Utf8.ofChars (text.flatMap encodeChar)) := by
  refine (charsText_encode text).body ?_
  rintro b hb rfl
  obtain ⟨d, hd, inner⟩ := List.mem_flatMap.1 hb
  obtain ⟨c, _, written⟩ := List.mem_flatMap.1 hd
  have high := le_of_mem_encodeChar written
  have zero := (Utf8.mem_encodeChar inner).resolve_right (by decide)
  rw [← zero] at high
  contradiction

theorem decode_encode (s : String) : decode (Utf8.ofChars (s.toList.flatMap encodeChar)) = .ok s :=
  decode_of_charsText (charsText_encode s.toList)

theorem stringText_encode (s : String) : StringText (Utf8.ofChars (encode s.toList)) s := by
  rw [encode, Utf8.ofChars_append, Utf8.ofChars_cons]
  exact .quoted (body_encode s.toList) (decode_encode s)

end Quoted

end JsonTree
