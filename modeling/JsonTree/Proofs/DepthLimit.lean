import JsonTree.Proofs.Failing

/-!
The limit on nesting is exact: a document within it is read as under any higher limit, and one beyond
it fails at the first bracket that the limit leaves no level for.
-/
namespace JsonTree

open Document (depthAfter)

variable {asText : Bool} {levels higher : Nat} {input : List UInt8} {e : ParseError}

theorem MeetsLimit.kind {input : Input} (h : MeetsLimit levels input e) : e.kind = .tooDeep := by
  obtain ⟨_, _, _, _⟩ := h
  rfl

/-- The place where the limit is met, as the bytes before it show it. -/
theorem MeetsLimit.place (h : MeetsLimit levels (Input.ofBytes input) e) :
    input[e.offset]? = some e.byte ∧ (e.byte = Byte.openBrace ∨ e.byte = Byte.openBracket) ∧
      depthAfter 0 (input.take e.offset) = levels := by
  obtain ⟨taken, opened, bytes, bracket⟩ := h
  rename_i t left rest b
  have whole : input = t ++ b :: left := by
    rw [← bytes]
    exact taken.bytes
  have place : (rest.fail .tooDeep).offset = t.length := by
    rw [Input.fail, Fault.locate, Nat.add_zero, taken.offset]
    exact Nat.zero_add _
  have shown : (rest.fail .tooDeep).byte = b := by
    simp [Input.fail, Fault.locate, bytes]
  rw [place, shown, whole]
  refine ⟨by simp, bracket, ?_⟩
  rw [List.take_left, opened.depthAfter, Nat.zero_add]

/-- A document that does not meet the limit is read the same under every higher one. -/
theorem parse_same_or_meets (input : List UInt8) (asText : Bool) (le : levels ≤ higher) :
    (parse input { numbersAsText := asText, maxDepth := higher } =
        parse input { numbersAsText := asText, maxDepth := levels } ∧
      ∀ e, parse input { numbersAsText := asText, maxDepth := levels } = .error e →
        e.kind ≠ .tooDeep) ∨
    ∃ e, parse input { numbersAsText := asText, maxDepth := levels } = .error e ∧
      MeetsLimit levels (Input.ofBytes input) e := by
  rw [Document.parse_read, Document.parse_read]
  unfold Document.root
  split
  · have outcomes := (Document.value_outcomes asText le (Input.ofBytes input).skipWhitespace).gap
    simp only
    generalize (Document.value asText levels).read _ = x at outcomes ⊢
    generalize (Document.value asText higher).read _ = y at outcomes ⊢
    cases outcomes with
    | ok p =>
      refine .inl ⟨rfl, fun e failed => ?_⟩
      simp only [Except.bind] at failed
      split at failed
      · contradiction
      · cases failed
        nofun
    | error inner _ =>
      refine .inl ⟨rfl, ?_⟩
      rintro _ ⟨⟩ deep
      rw [deep] at inner
      contradiction
    | limit meets => exact .inr ⟨_, rfl, meets⟩
  · refine .inl ⟨rfl, ?_⟩
    rintro _ ⟨⟩
    nofun

/-- The limit on nesting bears on a document exactly where it nests deeper. A reading that does not
meet the limit is the same under every higher one. A tree that a higher limit gives is given or
refused by its own nesting. Where the limit is met, a container would open beside as many open ones
as the limit allows. -/
theorem parse_depth_limit (input : List UInt8) (asText : Bool) :
    (∀ m m', m ≤ m' →
      (∀ e, parse input { numbersAsText := asText, maxDepth := m } = .error e → e.kind ≠ .tooDeep) →
        parse input { numbersAsText := asText, maxDepth := m' } =
          parse input { numbersAsText := asText, maxDepth := m }) ∧
    (∀ m m' v, m ≤ m' → parse input { numbersAsText := asText, maxDepth := m' } = .ok v →
      (v.nesting ≤ m → parse input { numbersAsText := asText, maxDepth := m } = .ok v) ∧
      (m < v.nesting → ∃ e, parse input { numbersAsText := asText, maxDepth := m } = .error e ∧
        e.kind = .tooDeep)) ∧
    (∀ m e, parse input { numbersAsText := asText, maxDepth := m } = .error e →
      e.kind = .tooDeep → input[e.offset]? = some e.byte ∧
        (e.byte = Byte.openBrace ∨ e.byte = Byte.openBracket) ∧
        depthAfter 0 (input.take e.offset) = m) := by
  refine ⟨fun m m' le within => ?_, fun m m' v le read => ⟨fun shallow => ?_, fun deep => ?_⟩,
    fun m e failed deep => ?_⟩
  · obtain ⟨same, _⟩ | ⟨e, failed, meets⟩ := parse_same_or_meets input asText le
    · exact same
    · exact absurd meets.kind (within e failed)
  · rw [parse_eq_ok_iff] at read ⊢
    exact ⟨read.1, shallow⟩
  · obtain ⟨same, _⟩ | ⟨e, failed, meets⟩ := parse_same_or_meets input asText le
    · have shallow := ((parse_eq_ok_iff _ _ _).1 (same.symm.trans read)).2
      exact absurd shallow (Nat.not_le_of_lt deep)
    · exact ⟨e, failed, meets.kind⟩
  · obtain ⟨_, other⟩ | ⟨e', failed', meets⟩ := parse_same_or_meets input asText (Nat.le_refl m)
    · exact absurd deep (other e failed)
    · cases failed.symm.trans failed'
      exact meets.place

/-- Two brackets under limits of one, two and nine. -/
theorem parse_depth_limit_twice :
    (∃ e, parse (Utf8.ofString "[[1]]") { numbersAsText := false, maxDepth := 1 } = .error e ∧
      e.kind = .tooDeep ∧ (Utf8.ofString "[[1]]")[e.offset]? = some e.byte ∧
      depthAfter 0 ((Utf8.ofString "[[1]]").take e.offset) = 1) ∧
    parse (Utf8.ofString "[[1]]") { numbersAsText := false, maxDepth := 9 } =
      parse (Utf8.ofString "[[1]]") { numbersAsText := false, maxDepth := 2 } := by
  have inner : Grammar.ValueText false (Utf8.ofString "[1]") (.array [.int 1]) :=
    .array (.items (.last (.of (.number (Number.numberText_iff.2 rfl)))))
  have inside : Grammar.Bracketed (Grammar.ValueText false) Byte.openBracket Byte.closeBracket
      (Utf8.ofString "[[1]]") [.array [.int 1]] := .items (.last (.of inner))
  have text : Grammar.DocumentText false (Utf8.ofString "[[1]]") (.array [.array [.int 1]]) :=
    Grammar.Padded.of inside
  have read : parse (Utf8.ofString "[[1]]") { numbersAsText := false, maxDepth := 2 } = .ok _ :=
    Document.parse_of_document text (by decide)
  obtain ⟨same, given, place⟩ := parse_depth_limit (Utf8.ofString "[[1]]") false
  obtain ⟨e, failed, deep⟩ := (given 1 2 _ (by decide) read).2 (by decide)
  obtain ⟨shown, _, depth⟩ := place 1 e failed deep
  refine ⟨⟨e, failed, deep, shown, depth⟩, same 2 9 (by decide) fun e failed => ?_⟩
  cases failed.symm.trans read

end JsonTree
