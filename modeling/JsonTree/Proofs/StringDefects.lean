import JsonTree.Proofs.Faults
import JsonTree.Proofs.Spelling
import Mathlib.Data.List.Induction

/-!
Which defect of a string is reported. A quote or a NUL counts unless an odd number of backslashes
stands before it, and the first that counts decides whether the string is closed. What is wrong
inside a closed string is reported only then: bytes that are no text, and in a text the first escape
that cannot be read.
-/
namespace JsonTree

open Grammar

namespace Quoted

/-- Whether the byte after these is escaped. -/
def escapes (before : List UInt8) : Bool :=
  (before.reverse.takeWhile (· == Byte.backslash)).length % 2 == 1

/-- No quote and no NUL stands here except where it is escaped. -/
def Unclosed (bytes : List UInt8) : Prop :=
  ∀ i (h : i < bytes.length), escapes (bytes.take i) = false →
    bytes[i] ≠ Byte.quote ∧ bytes[i] ≠ Byte.nul

instance : DecidablePred Unclosed := fun _ => Nat.decidableBallLT _ _

/-- The first byte that ends the search for the closing quote, behind `before`. -/
structure Stop (b : UInt8) (before left : List UInt8) : Prop where
  parts : ∃ after, left = before ++ b :: after
  unclosed : Unclosed before
  free : escapes before = false

variable {before after body : List UInt8} {b : UInt8}

theorem escapes_concat (before : List UInt8) (b : UInt8) :
    escapes (before ++ [b]) = (b == Byte.backslash && !escapes before) := by
  rw [escapes, List.reverse_append, List.reverse_singleton, List.singleton_append,
    List.takeWhile_cons]
  cases b == Byte.backslash with
  | false => rfl
  | true =>
    have parity : ∀ n : Nat, ((n + 1) % 2 == 1) = !(n % 2 == 1) := fun n => by
      rcases Nat.mod_two_eq_zero_or_one n with even | odd <;> simp [Nat.add_mod, *]
    rw [if_pos rfl, List.length_cons, Bool.true_and, escapes, parity]

theorem unclosed_nil : Unclosed [] := fun _ h => absurd h (Nat.not_lt_zero _)

theorem Unclosed.of_append (h : Unclosed (before ++ after)) : Unclosed before := by
  intro i inside free
  have whole := h i (by rw [List.length_append]; omega)
  rw [List.take_append_of_le_length (Nat.le_of_lt inside), List.getElem_append_left inside] at whole
  exact whole free

theorem unclosed_concat : Unclosed (before ++ [b]) ↔
    Unclosed before ∧ (escapes before = false → b ≠ Byte.quote ∧ b ≠ Byte.nul) := by
  constructor
  · intro h
    refine ⟨h.of_append, ?_⟩
    simpa using h before.length (by simp)
  · rintro ⟨h, last⟩ i inside free
    rcases Nat.lt_or_ge i before.length with earlier | later
    · rw [List.take_append_of_le_length (Nat.le_of_lt earlier)] at free
      rw [List.getElem_append_left earlier]
      exact h i earlier free
    · obtain rfl : i = before.length := by
        rw [List.length_append, List.length_singleton] at inside
        omega
      rw [List.take_left] at free
      simpa using last free

theorem Stop.append {left : List UInt8} (h : Stop b before left) (more : List UInt8) :
    Stop b before (left ++ more) := by
  obtain ⟨⟨after, rfl⟩, unclosed, free⟩ := h
  exact ⟨⟨after ++ more, by simp⟩, unclosed, free⟩

theorem exists_stop (left : List UInt8) :
    Unclosed left ∨ ∃ before, Stop Byte.quote before left ∨ Stop Byte.nul before left := by
  induction left using List.reverseRecOn with
  | nil => exact .inl unclosed_nil
  | append_singleton left b ih =>
    rcases ih with unclosed | ⟨before, quote | nul⟩
    · cases free : escapes left with
      | true => exact .inl (unclosed_concat.2 ⟨unclosed, by simp [free]⟩)
      | false =>
        have stop : Stop b left (left ++ [b]) := ⟨⟨[], rfl⟩, unclosed, free⟩
        by_cases quote : b = Byte.quote
        · exact .inr ⟨left, .inl (quote ▸ stop)⟩
        · by_cases nul : b = Byte.nul
          · exact .inr ⟨left, .inr (nul ▸ stop)⟩
          · exact .inl (unclosed_concat.2 ⟨unclosed, fun _ => ⟨quote, nul⟩⟩)
    · exact .inr ⟨before, .inl (quote.append [b])⟩
    · exact .inr ⟨before, .inr (nul.append [b])⟩

/-- The search for the closing quote passes over what is unclosed, and then knows whether the next
byte is escaped. -/
theorem bodyLength_append (h : Unclosed before) (rest : List UInt8) :
    bodyLength 0 false (before ++ rest) = bodyLength before.length (escapes before) rest := by
  -- From the right, as what a byte means depends on those that stand before it.
  induction before using List.reverseRecOn generalizing rest with
  | nil => rfl
  | append_singleton before b ih =>
    obtain ⟨earlier, last⟩ := unclosed_concat.1 h
    rw [List.append_assoc, List.singleton_append, ih earlier, bodyLength, escapes_concat,
      List.length_append, List.length_singleton]
    cases free : escapes before with
    | true => simp
    | false =>
      obtain ⟨unquoted, filled⟩ := last free
      by_cases slash : b = Byte.backslash
      · simp [slash]
      · simp [beq_eq_false_iff_ne.2 slash, slash, unquoted, filled]

theorem body_of_unclosed (h : Unclosed body) (free : escapes body = false) : Body body := by
  have found : bodyLength 0 false (body ++ [Byte.quote]) = .ok body.length := by
    rw [bodyLength_append h, free]
    rfl
  obtain ⟨same, rest, parts, length, inner⟩ := body_of_bodyLength found
  rw [Nat.zero_add] at length
  rwa [(List.append_inj parts length).1]

theorem Unclosed.escapes_of_body (h : Unclosed body) (inner : Body body) :
    escapes body = false := by
  have found := bodyLength_of_body inner 0 []
  rw [bodyLength_append h, Nat.zero_add] at found
  cases free : escapes body with
  | false => rfl
  | true =>
    rw [free] at found
    contradiction

end Quoted

namespace Escape

/-- The kinds of failure that an escape shows. -/
def faults : List ErrorKind := [.unknownEscape, .truncatedEscape, .invalidHex, .unpairedSurrogate]

/-- A failure of an escape that its first `n` bytes show. -/
structure Within (n : Nat) (f : Fault) : Prop where
  kind : f.kind ∈ faults
  index : f.index ≤ n

variable {text : List UInt8} {f : Fault}

theorem Within.shift {n : Nat} (h : Within n f) (m : Nat) : Within (n + m) (f.shift m) :=
  ⟨h.kind, Nat.add_le_add_right h.index m⟩

theorem Within.le {n m : Nat} (h : Within n f) (le : n ≤ m) : Within m f :=
  ⟨h.kind, Nat.le_trans h.index le⟩

theorem unit_within (failed : unit text = .error f) : Within 3 f := by
  simp only [unit] at failed
  split at failed
  · cases failed
    exact ⟨by decide, Nat.zero_le 3⟩
  · split at failed
    · rename_i k found
      cases failed
      obtain ⟨inside, -⟩ := List.findIdx?_eq_some_iff_getElem.1 found
      rw [List.length_take] at inside
      exact ⟨List.mem_of_elem_eq_true rfl, show k ≤ 3 by omega⟩
    · contradiction

theorem codePoint_within (failed : codePoint text = .error f) : Within 9 f := by
  unfold codePoint at failed
  split at failed
  · rename_i first
    cases failed
    exact (unit_within first).le (by decide)
  · split at failed
    · cases failed
      exact ⟨by decide, Nat.zero_le 9⟩
    · split at failed
      · contradiction
      · split at failed
        · split at failed
          · rename_i second
            cases failed
            exact (unit_within second).shift 6
          · split at failed
            · contradiction
            · cases failed
              exact ⟨by decide, by decide⟩
        · cases failed
          exact ⟨by decide, by decide⟩

/-- A pair takes eleven bytes after its backslash, and the last of them shows it at the latest. -/
theorem read_within (failed : read text = .error f) : Within 10 f := by
  unfold read at failed
  split at failed
  · cases failed
    exact ⟨by decide, Nat.zero_le 10⟩
  · split at failed
    · split at failed
      · rename_i point
        cases failed
        exact (codePoint_within point).shift 1
      · contradiction
    · split at failed
      · contradiction
      · cases failed
        exact ⟨by decide, Nat.zero_le 10⟩

theorem not_escapeText (failed : read text = .error f) {t : List UInt8} {c : Char}
    (h : EscapeText t c) : ¬ t <+: text := by
  rintro ⟨rest, rfl⟩
  rw [read_of_escapeText h rest] at failed
  contradiction

end Escape

namespace Quoted

variable {body : List UInt8} {offset : Nat} {left : List UInt8}

theorem read_opened (offset : Nat) (left : List UInt8) : read ⟨offset, Byte.quote :: left⟩ =
    match bodyLength 0 false left with
    | .error f => .error (f.locate ⟨offset + 1, left⟩)
    | .ok n =>
      match decode (left.take n) with
      | .error f => .error (f.locate ⟨offset + 1, left⟩)
      | .ok s => .ok (s, ⟨offset + 1 + (n + 1), left.drop (n + 1)⟩) := rfl

/-- A closed string fails as its body does. -/
theorem read_closed (h : Unclosed body) (free : escapes body = false) (offset : Nat)
    (after : List UInt8) : read ⟨offset, Byte.quote :: (body ++ Byte.quote :: after)⟩ =
      match decode body with
      | .error f => .error (f.locate ⟨offset + 1, body ++ Byte.quote :: after⟩)
      | .ok s => .ok (s, ⟨offset + body.length + 2, after⟩) := by
  have found : bodyLength 0 false (body ++ Byte.quote :: after) = .ok body.length := by
    rw [bodyLength_append h, free]
    rfl
  have rest : (body ++ Byte.quote :: after).drop (body.length + 1) = after := by
    simp
  have place : offset + 1 + (body.length + 1) = offset + body.length + 2 := by omega
  simp only [read_opened, found, List.take_left, rest, place]

theorem decode_invalid (invalid : ¬ ∃ text, body = Utf8.ofChars text) : ∃ text b more,
    body = Utf8.ofChars text ++ b :: more ∧
      (∀ other rest, body = Utf8.ofChars other ++ rest →
        (Utf8.ofChars other).length ≤ (Utf8.ofChars text).length) ∧
      decode body = .error ⟨.invalidUtf8, (Utf8.ofChars text).length⟩ := by
  obtain ⟨text, left, parts, valid, longest⟩ := Utf8.validLength_longest body
  rw [valid] at longest
  cases left with
  | nil => exact absurd ⟨text, by rw [parts, List.append_nil]⟩ invalid
  | cons b more =>
    have inside : (Utf8.ofChars text).length < body.length := by
      rw [parts]
      simp
    exact ⟨text, b, more, parts, longest, by simp [decode, valid, inside]⟩

/-- A body that is a text fails at a backslash up to which it is spelled out. -/
theorem decode_failed {text : List Char} {f : Fault} (inner : Body (Utf8.ofChars text))
    (failed : decode (Utf8.ofChars text) = .error f) : ∃ before rest s g,
      Utf8.ofChars text = before ++ Byte.backslash :: rest ∧ Body before ∧ decode before = .ok s ∧
        Escape.read rest = .error g ∧ f = g.shift (before.length + 1) := by
  obtain ⟨before, rest, cs, parts, spelled, whole, stop⟩ := exists_spelled text inner
  have decoded : decode before = .ok (.ofList cs) :=
    decode_of_charsText (by rwa [String.toList_ofList])
  rcases stop with rfl | ⟨more, g, rfl, unread⟩
  · rw [parts, List.append_nil, decoded] at failed
    contradiction
  · have unescaped : Escape.unescape 0 [] (Utf8.ofChars text) =
        .error (g.shift (before.length + 1)) := by
      rw [parts, Escape.unescape_charsText spelled, Escape.unescape, if_pos rfl, unread,
        Nat.zero_add]
    rw [decode, Utf8.validLength_ofChars, if_neg (Nat.lt_irrefl _), unescaped] at failed
    cases failed
    exact ⟨before, more, _, g, parts, whole, decoded, unread, rfl⟩

theorem read_nul {before : List UInt8} (stop : Stop Byte.nul before left) (offset : Nat) :
    read ⟨offset, Byte.quote :: left⟩ =
      .error ⟨.nulInString, Byte.nul, offset + 1 + before.length⟩ := by
  obtain ⟨⟨after, rfl⟩, unclosed, free⟩ := stop
  have found : bodyLength 0 false (before ++ Byte.nul :: after) =
      .error ⟨.nulInString, before.length⟩ := by
    rw [bodyLength_append unclosed, free]
    rfl
  rw [read_opened, found]
  simp [Fault.locate]

theorem read_unclosed (unclosed : Unclosed left) (offset : Nat) :
    read ⟨offset, Byte.quote :: left⟩ =
      .error ⟨.endOfInput, 0, offset + (Byte.quote :: left).length⟩ := by
  have found := bodyLength_append unclosed []
  rw [List.append_nil, bodyLength] at found
  rw [read_opened, found]
  simp [Fault.locate, Nat.add_assoc, Nat.add_comm 1]

/-- An escape that makes a body unreadable. What stands before it is a string, no escape is spelled
behind its backslash, and the failure lies in it or where the body ends. -/
structure BadEscape (offset : Nat) (body : List UInt8) (e : ParseError) (before rest : List UInt8) :
    Prop where
  kind : e.kind ∈ Escape.faults
  parts : body = before ++ Byte.backslash :: rest
  begins : escapes before = false
  earlier : ∃ s, ∀ more, read ⟨offset, Byte.quote :: (before ++ Byte.quote :: more)⟩ =
    .ok (s, ⟨offset + before.length + 2, more⟩)
  unspelled : ∀ t c, EscapeText t c → ¬ t <+: rest
  least : offset + 1 + before.length + 1 ≤ e.offset
  most : e.offset ≤ offset + 1 + before.length + 11
  inside : e.offset ≤ offset + 1 + body.length

theorem read_unescaped {text : List Char} {e : ParseError}
    (stop : Stop Byte.quote (Utf8.ofChars text) left)
    (failed : read ⟨offset, Byte.quote :: left⟩ = .error e) :
    ∃ before rest, BadEscape offset (Utf8.ofChars text) e before rest := by
  obtain ⟨⟨after, rfl⟩, unclosed, free⟩ := stop
  rw [read_closed unclosed free] at failed
  split at failed
  · rename_i f same
    cases failed
    obtain ⟨before, rest, s, g, parts, whole, decoded, unread, rfl⟩ :=
      decode_failed (body_of_unclosed unclosed free) same
    have within := Escape.read_within unread
    obtain ⟨-, -, inside, left, split, index, -⟩ := Escape.read_inString unread
    have last : g.index ≤ rest.length := by
      rw [split, index, List.length_append]
      exact Nat.le_add_right _ _
    have earlier : Unclosed before := by
      rw [parts] at unclosed
      exact unclosed.of_append
    have begins := earlier.escapes_of_body whole
    have length := congrArg List.length parts
    rw [List.length_append, List.length_cons] at length
    refine ⟨before, rest, within.kind, parts, begins, ⟨s, fun more => ?_⟩,
      fun t c => Escape.not_escapeText unread, ?_, ?_, ?_⟩
    · rw [read_closed earlier begins, decoded]
    all_goals simp only [Fault.locate, Fault.shift]
    · omega
    · have most := within.index
      omega
    · omega
  · contradiction

/-- A string fails by the first of its defects. A NUL before the closing quote and a missing quote
come first, then bytes that are no text, at the end of the longest text before them, and at last the
first escape that cannot be read. -/
theorem read_defect (offset : Nat) (left : List UInt8) :
    (Unclosed left ∨ ∃ before, Stop Byte.quote before left ∨ Stop Byte.nul before left) ∧
    (∀ before, Stop Byte.nul before left → read ⟨offset, Byte.quote :: left⟩ =
      .error ⟨.nulInString, Byte.nul, offset + 1 + before.length⟩) ∧
    (Unclosed left → read ⟨offset, Byte.quote :: left⟩ =
      .error ⟨.endOfInput, 0, offset + (Byte.quote :: left).length⟩) ∧
    (∀ body, Stop Byte.quote body left → (¬ ∃ text, body = Utf8.ofChars text) →
      ∃ text b more, body = Utf8.ofChars text ++ b :: more ∧
        (∀ other rest, body = Utf8.ofChars other ++ rest →
          (Utf8.ofChars other).length ≤ (Utf8.ofChars text).length) ∧
        read ⟨offset, Byte.quote :: left⟩ =
          .error ⟨.invalidUtf8, b, offset + 1 + (Utf8.ofChars text).length⟩) ∧
    (∀ body e, Stop Byte.quote body left → (∃ text, body = Utf8.ofChars text) →
      read ⟨offset, Byte.quote :: left⟩ = .error e →
      ∃ before rest, BadEscape offset body e before rest) := by
  refine ⟨exists_stop left, fun before stop => read_nul stop offset,
    fun unclosed => read_unclosed unclosed offset, ?_, ?_⟩
  · rintro body ⟨⟨after, rfl⟩, unclosed, free⟩ invalid
    obtain ⟨text, b, more, parts, longest, failed⟩ := decode_invalid invalid
    refine ⟨text, b, more, parts, longest, ?_⟩
    rw [read_closed unclosed free, failed]
    simp [Fault.locate, parts]
  · rintro body e stop ⟨text, rfl⟩ failed
    exact read_unescaped stop failed

/-- A NUL, a missing quote and a byte that is no text are each reported although an unknown escape
stands before them. Of two escapes that cannot be read the first one is at fault. -/
theorem read_defect_several :
    read ⟨0, Byte.quote :: (Utf8.ofString "\\q" ++ [Byte.nul, Byte.quote])⟩ =
        .error ⟨.nulInString, Byte.nul, 3⟩ ∧
      read ⟨0, Byte.quote :: Utf8.ofString "\\q\\\""⟩ = .error ⟨.endOfInput, 0, 5⟩ ∧
      (∃ e, read ⟨0, Byte.quote :: (Utf8.ofString "\\q" ++ [0xFF, Byte.quote])⟩ = .error e ∧
        e.kind = .invalidUtf8) ∧
      read ⟨0, Byte.quote :: (Utf8.ofString "\\ud800\\udcZ0\\q" ++ [Byte.quote])⟩ =
        .error ⟨.invalidHex, 0x5A, 11⟩ ∧
      ∃ before rest, Utf8.ofString "\\ud800\\udcZ0\\q" = before ++ Byte.backslash :: rest ∧
        (∀ t c, EscapeText t c → ¬ t <+: rest) ∧ before.length + 2 ≤ 11 ∧
        11 ≤ before.length + 12 := by
  have unknown : Unclosed (Utf8.ofString "\\q") := by decide +kernel
  have ended : Unclosed (Utf8.ofString "\\q\\\"") := by decide +kernel
  have stray : Unclosed (Utf8.ofString "\\q" ++ [0xFF]) := by decide +kernel
  have broken : Unclosed (Utf8.ofString "\\ud800\\udcZ0\\q") := by decide +kernel
  have noText : ¬ ∃ text, Utf8.ofString "\\q" ++ [0xFF] = Utf8.ofChars text := by
    rw [← Utf8.validLength_eq_length_iff]
    decide +kernel
  have unread : decode (Utf8.ofString "\\ud800\\udcZ0\\q") = .error ⟨.invalidHex, 10⟩ := by
    rw [decode, Escape.unescape.eq_def]
    decide +kernel
  have failed : read ⟨0, Byte.quote :: (Utf8.ofString "\\ud800\\udcZ0\\q" ++ [Byte.quote])⟩ =
      .error ⟨.invalidHex, 0x5A, 11⟩ := by
    rw [read_closed broken rfl, unread]
    rfl
  obtain ⟨-, nul, -, -, -⟩ := read_defect 0 (Utf8.ofString "\\q" ++ [Byte.nul, Byte.quote])
  obtain ⟨-, -, endless, -, -⟩ := read_defect 0 (Utf8.ofString "\\q\\\"")
  obtain ⟨-, -, -, invalid, -⟩ := read_defect 0 (Utf8.ofString "\\q" ++ [0xFF, Byte.quote])
  obtain ⟨-, -, -, -, escape⟩ :=
    read_defect 0 (Utf8.ofString "\\ud800\\udcZ0\\q" ++ [Byte.quote])
  obtain ⟨_, _, _, _, _, notText⟩ :=
    invalid (Utf8.ofString "\\q" ++ [0xFF]) ⟨⟨[], rfl⟩, stray, rfl⟩ noText
  obtain ⟨before, rest, bad⟩ := escape _ _ ⟨⟨[], rfl⟩, broken, rfl⟩ ⟨_, rfl⟩ failed
  refine ⟨nul (Utf8.ofString "\\q") ⟨⟨[Byte.quote], rfl⟩, unknown, rfl⟩, endless ended,
    ⟨_, notText, rfl⟩, failed, before, rest, bad.parts, bad.unspelled, ?_, ?_⟩
  · exact (Nat.le_of_eq (by omega)).trans bad.least
  · exact bad.most.trans (by omega)

end Quoted

end JsonTree
