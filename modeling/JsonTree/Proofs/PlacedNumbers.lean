import JsonTree.Proofs.Context

/-!
A number means the same wherever it stands. Between any text and a delimiter it is read to the value
that its literal has alone, or it fails as the literal does alone, further on by what stands before
it. So an array of one number is read if the number is, and otherwise fails as the number does.
-/
namespace JsonTree

open Grammar

variable {t left w : List UInt8}

/-- A literal that ends where a delimiter follows is read as it is alone. -/
theorem Number.read_placed (offset : Nat) (inner : ∀ b ∈ t, Byte.endsNumber b = false)
    (ends : ∀ b ∈ left.head?, Byte.endsNumber b) : read false ⟨offset, t ++ left⟩ =
      match parseNumber t with
      | .error e => .error (e.moved offset)
      | .ok v => .ok (v, ⟨offset + t.length, left⟩) := by
  have taken : Input.Splits ⟨offset, t ++ left⟩ t ⟨offset + t.length, left⟩ := ⟨rfl, rfl⟩
  rw [read_eq taken inner ends, parseNumber_eq inner]
  cases decode false t with
  | error f => simp [Fault.locate, ParseError.moved, Nat.add_comm]
  | ok v => rfl

namespace Reader

/-- A container fails as its first item does. -/
theorem container_failed {α : Type} {item : Reader α} {close : UInt8} {offset : Nat} {e : ParseError}
    (closes : close = Byte.closeBracket ∨ close = Byte.closeBrace) (space : Space w)
    (leads : Leads left) (failed : item.read ⟨offset + w.length, left⟩ = .error e) :
    container item close ⟨offset, w ++ left⟩ = .error e := by
  have gap : Input.skipWhitespace ⟨offset, w ++ left⟩ = ⟨offset + w.length, left⟩ := by
    rw [Input.skipWhitespace_append space, leads.skipWhitespace]
  have step : (separated item close).read ⟨offset + w.length, left⟩ = .error e := by
    rw [separated_read, leads.skipWhitespace, failed]
    rfl
  have other : left.head? ≠ some close := by
    obtain ⟨b, first, _, bracket, brace⟩ := leads
    rw [Option.mem_def.1 first]
    rcases closes with rfl | rfl <;> simpa
  simp only [container, gap, if_neg other]
  exact items_failed step

end Reader

namespace Document

theorem parse_array_failed {options : Options} {e : ParseError} (depth : 1 ≤ options.maxDepth)
    (space : Space w) (leads : Reader.Leads left)
    (failed : ∀ levels, (value options.numbersAsText levels).read ⟨1 + w.length, left⟩ = .error e) :
    parse (Byte.openBracket :: w ++ left) options = .error e := by
  obtain ⟨below, levels⟩ := Nat.exists_eq_add_of_le' depth
  have opening : Reader.Leads (Byte.openBracket :: w ++ left) := ⟨_, rfl, by decide⟩
  have inside : Reader.container (value options.numbersAsText below) Byte.closeBracket
      ⟨1, w ++ left⟩ = .error e :=
    Reader.container_failed (.inl rfl) space leads (failed below)
  have start : (Input.ofBytes (Byte.openBracket :: w ++ left)).skip 1 = ⟨1, w ++ left⟩ := rfl
  rw [parse_read, Input.ofBytes, opening.skipWhitespace, root, if_pos (.inr rfl), levels,
    value_read_array below rfl, array_read]
  rw [Input.ofBytes] at start
  rw [start, inside]
  rfl

end Document

/-- A run that begins as a number and holds no delimiter is read alike alone and within a text: to
the same value, with the cursor behind it, or to the same failure at the same byte of it. In an array
by itself it is the only item, or the array fails as it does. -/
theorem number_placed (starts : ∃ b ∈ t.head?, Byte.startsNumber b)
    (inner : ∀ b ∈ t, Byte.endsNumber b = false) :
    (∀ p s, (∀ b ∈ s.head?, Byte.endsNumber b) →
      Number.read false ((Input.ofBytes (p ++ t ++ s)).skip p.length) =
        match parseNumber t with
        | .error e => .error ⟨e.kind, e.byte, e.offset + p.length⟩
        | .ok v => .ok (v, ⟨p.length + t.length, s⟩)) ∧
    (∀ w w' options, Space w → Space w' → options.numbersAsText = false → 1 ≤ options.maxDepth →
      parse (Byte.openBracket :: w ++ t ++ w' ++ [Byte.closeBracket]) options =
        match parseNumber t with
        | .error e => .error ⟨e.kind, e.byte, e.offset + (1 + w.length)⟩
        | .ok v => .ok (.array [v])) := by
  constructor
  · intro p s ends
    have start : (Input.ofBytes (p ++ t ++ s)).skip p.length = ⟨p.length, t ++ s⟩ := by
      simp [Input.ofBytes, Input.skip]
    rw [start]
    exact Number.read_placed p.length inner ends
  · intro w w' options space space' decoded depth
    have ends : ∀ b ∈ (w' ++ [Byte.closeBracket]).head?, Byte.endsNumber b := by
      cases w' with
      | nil => rintro _ ⟨⟩; decide
      | cons b rest => rintro _ ⟨⟩; exact Byte.endsNumber_of_isWhitespace (space' _ (by simp))
    cases read : parseNumber t with
    | ok v =>
      have number : NumberText false t v := parseNumber_eq_ok_iff.1 read
      have text : DocumentText options.numbersAsText
          (Byte.openBracket :: w ++ t ++ w' ++ [Byte.closeBracket]) (.array [v]) := by
        rw [decoded]
        exact Padded.of (Bracketed.items (.last (.mk space (ValueText.number number) space')))
      have flat : v.nesting = 0 :=
        Value.nesting_of_isNumber (Number.isNumber_of_decode number.decoded)
      refine Document.parse_of_document text (Nat.le_trans ?_ depth)
      simp [Value.nesting, Value.nestingItems, flat]
    | error e =>
      have failed := Number.read_placed (1 + w.length) inner ends
      rw [read] at failed
      have parts : Byte.openBracket :: w ++ t ++ w' ++ [Byte.closeBracket] =
          Byte.openBracket :: w ++ (t ++ (w' ++ [Byte.closeBracket])) := by simp
      rw [parts]
      refine Document.parse_array_failed depth space
        ((Document.leads_number starts).append _) fun levels => ?_
      obtain ⟨b, first, number⟩ := starts
      obtain ⟨more, rfl⟩ := List.head?_eq_some_iff.1 first
      rw [Document.value_read_number levels rfl number, decoded]
      exact failed

/-- A byte that is no hex digit, behind an item, and in an array by itself after a space. -/
theorem number_placed_badDigit :
    Number.read false ((Input.ofBytes (Utf8.ofString "[1,-0xFG]")).skip 3) =
        .error ⟨.invalidHex, 0x47, 7⟩ ∧
      parse (Utf8.ofString "[ -0xFG]") {} = .error ⟨.invalidHex, 0x47, 6⟩ := by
  have starts : ∃ b ∈ (Utf8.ofString "-0xFG").head?, Byte.startsNumber b :=
    ⟨Byte.minus, rfl, by decide⟩
  have failed : parseNumber (Utf8.ofString "-0xFG") = .error ⟨.invalidHex, 0x47, 4⟩ := rfl
  obtain ⟨placed, alone⟩ := number_placed starts (by decide +kernel)
  have behind := placed (Utf8.ofString "[1,") [Byte.closeBracket] (by rintro _ ⟨⟩; rfl)
  have inside := alone [Byte.space] [] {} (List.forall_mem_singleton.2 rfl) space_nil rfl (by decide)
  rw [failed] at behind inside
  exact ⟨behind, inside⟩

end JsonTree
