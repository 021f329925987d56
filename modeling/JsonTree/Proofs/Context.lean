import JsonTree.Proofs.Failing

/-!
A document is read alike wherever it stands. Whitespace before it moves its failures and nothing
else, what follows it decides only whether the text as a whole is accepted, and a text that is
refused for what follows a document begins with one.
-/
namespace JsonTree

/-- The same failure in a text with `n` bytes more before it. -/
def ParseError.moved (n : Nat) (e : ParseError) : ParseError := { e with offset := e.offset + n }

/-- What is left of a text with `n` bytes more before it. -/
def Input.moved (n : Nat) (input : Input) : Input := { input with offset := input.offset + n }

/-- The second result is the first with `n` bytes more before the text. -/
inductive Moved (n : Nat) {α : Type} (move : α → α) :
    Except ParseError α → Except ParseError α → Prop where
  | ok (a : α) : Moved n move (.ok a) (.ok (move a))
  | error (e : ParseError) : Moved n move (.error e) (.error (e.moved n))

variable {n : Nat} {input : Input}

@[simp] theorem Input.bytes_moved (n : Nat) (input : Input) : (input.moved n).bytes = input.bytes :=
  rfl

theorem Input.skip_moved (n : Nat) (input : Input) (k : Nat) :
    (input.moved n).skip k = (input.skip k).moved n := by
  simp only [skip, moved, Nat.add_right_comm]

theorem Input.skipWhitespace_moved (n : Nat) (input : Input) :
    (input.moved n).skipWhitespace = input.skipWhitespace.moved n :=
  skip_moved n input _

theorem Fault.locate_moved (n : Nat) (f : Fault) (input : Input) :
    f.locate (input.moved n) = (f.locate input).moved n := by
  simp only [locate, Input.moved, ParseError.moved, Nat.add_right_comm]

theorem Input.fail_moved (n : Nat) (input : Input) (kind : ErrorKind) :
    (input.moved n).fail kind = (input.fail kind).moved n :=
  Fault.locate_moved n _ input

namespace Moved

variable {α β : Type} {move : α → α} {move' : β → β} {x y : Except ParseError α}

theorem bind {f g : α → Except ParseError β} (h : Moved n move x y)
    (next : ∀ a, x = .ok a → Moved n move' (f a) (g (move a))) :
    Moved n move' (x.bind f) (y.bind g) := by
  cases h with
  | ok a => exact next a rfl
  | error e => exact .error e

theorem fail (input : Input) (kind : ErrorKind) :
    Moved n move (.error (input.fail kind)) (.error ((input.moved n).fail kind)) := by
  rw [Input.fail_moved]
  exact .error _

theorem locate (f : Fault) (input : Input) :
    Moved n move (.error (f.locate input)) (.error (f.locate (input.moved n))) := by
  rw [Fault.locate_moved]
  exact .error _

theorem mapError_eq (h : Moved n id x y) : y = x.mapError (ParseError.moved n) := by
  cases h <;> rfl

end Moved

/-- A reading that does not depend on where its input stands. -/
def Movable {α : Type} (read : Input → Except ParseError (α × Input)) : Prop :=
  ∀ n input, Moved n (fun p => (p.1, p.2.moved n)) (read input) (read (input.moved n))

theorem Quoted.read_movable : Movable read := by
  intro n input
  simp only [read, Input.skip_moved, Input.bytes_moved]
  split
  · exact .locate _ _
  · split
    · exact .locate _ _
    · exact .ok (_, Input.skip _ _)

theorem Number.read_movable (asText : Bool) : Movable (read asText) := by
  intro n input
  simp only [read, Input.skip_moved, Input.bytes_moved]
  split
  · exact .locate _ ⟨input.offset, _⟩
  · exact .ok (_, Input.skip _ _)

namespace Reader

variable {α : Type} {item : Reader α} {close : UInt8}

theorem expect_moved (n : Nat) (b : UInt8) (input : Input) :
    Moved n (Input.moved n) (expect b input) (expect b (input.moved n)) := by
  simp only [expect, Input.skip_moved, Input.bytes_moved]
  cases input.bytes with
  | nil => exact .fail _ _
  | cons c left =>
    simp only
    split
    · exact .ok _
    · exact .fail _ _

theorem separator_movable (close : UInt8) : Movable (separator close) := by
  intro n input
  simp only [separator, Input.skip_moved, Input.bytes_moved]
  cases input.bytes with
  | nil => exact .fail _ _
  | cons b left =>
    simp only
    split
    · exact .ok (true, Input.skip _ _)
    · split
      · exact .ok (false, Input.skip _ _)
      · exact .fail _ _

theorem separated_movable (close : UInt8) (item_movable : Movable item.read) :
    Movable (separated item close).read := by
  intro n input
  rw [separated_read, separated_read, Input.skipWhitespace_moved]
  refine (item_movable n _).bind fun p _ => ?_
  rw [Input.skipWhitespace_moved]
  exact (separator_movable close n _).bind fun q _ => .ok ((p.1, q.1), q.2)

theorem items_movable (item_movable : Movable item.read) (done : List α) :
    Movable (items item close done) := by
  intro n input
  -- Each item leaves less, and both readings go on behind it.
  induction size : input.bytes.length using Nat.strongRecOn generalizing done input with
  | ind size ih =>
    subst size
    rw [items_read, items_read]
    refine (separated_movable close item_movable n input).bind fun p read => ?_
    have less := (separated item close).progress read
    simp only
    split
    · exact ih _ less _ _ rfl
    · exact .ok (_, p.2)

theorem container_movable (item_movable : Movable item.read) : Movable (container item close) := by
  intro n input
  simp only [container, Input.skipWhitespace_moved, Input.bytes_moved, Input.skip_moved]
  split
  · exact .ok ([], Input.skip _ _)
  · exact items_movable item_movable [] n _

end Reader

namespace Document

theorem keyword_movable (word : List UInt8) (v : Value) (mismatch : ErrorKind) :
    Movable (keyword word v mismatch) := by
  intro n input
  simp only [keyword, Input.skip_moved, Input.bytes_moved]
  split
  · exact .fail _ _
  · split
    · exact .locate _ _
    · exact .ok (v, Input.skip _ _)

theorem string_movable : Movable string := by
  intro n input
  rw [string_read, string_read]
  exact (Quoted.read_movable n input).bind fun p _ => .ok (Value.string p.1, p.2)

section

variable {value : Reader Value} (value_movable : Movable value.read)
include value_movable

theorem member_movable : Movable (memberReader value).read := by
  intro n input
  rw [member_read, member_read]
  refine (Reader.expect_moved n Byte.quote input).bind fun _ _ => ?_
  refine (Quoted.read_movable n input).bind fun k _ => ?_
  rw [Input.skipWhitespace_moved]
  refine (Reader.expect_moved n Byte.colon _).bind fun rest _ => ?_
  rw [Input.skipWhitespace_moved]
  exact (value_movable n _).bind fun v _ => .ok ((k.1, v.1), v.2)

theorem array_movable : Movable (array value) := by
  intro n input
  rw [array_read, array_read, Input.skip_moved]
  exact (Reader.container_movable value_movable n _).bind fun p _ =>
    .ok (Value.array p.1, p.2)

theorem object_movable : Movable (object value) := by
  intro n input
  rw [object_read, object_read, Input.skip_moved]
  exact (Reader.container_movable (member_movable value_movable) n _).bind fun p _ =>
    .ok (Value.object p.1, p.2)

end

theorem valueOver_movable (asText : Bool) {nested : Option (Reader Value)}
    (each : ∀ value ∈ nested, Movable value.read) : Movable (valueOver asText nested) := by
  intro n input
  unfold valueOver
  rw [Input.bytes_moved]
  cases input.bytes with
  | nil => exact .fail _ _
  | cons b left =>
    simp only
    split
    · cases nested with
      | none => exact .fail _ _
      | some value => exact object_movable (each value rfl) n input
    · split
      · cases nested with
        | none => exact .fail _ _
        | some value => exact array_movable (each value rfl) n input
      · split
        · exact string_movable n input
        · split
          · exact keyword_movable _ _ _ n input
          · split
            · exact keyword_movable _ _ _ n input
            · split
              · exact keyword_movable _ _ _ n input
              · split
                · exact Number.read_movable asText n input
                · exact .fail _ _

theorem value_movable (asText : Bool) (levels : Nat) : Movable (value asText levels).read := by
  induction levels with
  | zero =>
    change Movable (valueOver asText none)
    exact valueOver_movable asText (by simp)
  | succ below ih =>
    change Movable (valueOver asText (some (value asText below)))
    exact valueOver_movable asText (by simpa using ih)

theorem root_movable (options : Options) : Movable (root options) := by
  intro n input
  unfold root
  rw [Input.bytes_moved]
  split
  · exact value_movable _ _ n input
  · exact .fail _ _

/-- Whitespace before a text moves its failures. -/
theorem parse_after_space (options : Options) {w : List UInt8} (space : Grammar.Space w)
    (input : List UInt8) :
    parse (w ++ input) options = (parse input options).mapError (ParseError.moved w.length) := by
  have start : (Input.ofBytes (w ++ input)).skipWhitespace =
      (Input.ofBytes input).skipWhitespace.moved w.length := by
    rw [← Input.skipWhitespace_moved]
    exact Input.skipWhitespace_append space 0 input
  apply Moved.mapError_eq
  rw [parse_read, parse_read, start]
  refine (root_movable options _ _).bind fun p _ => ?_
  rw [Input.skipWhitespace_moved, Input.bytes_moved]
  split
  · exact .ok p.1
  · exact .fail _ _

/-- The root does not fail for what follows it. -/
theorem root_error_kind {options : Options} {input : Input} {e : ParseError}
    (h : root options input = .error e) : e.kind ≠ .trailingBytes := by
  unfold root at h
  split at h
  · have outcomes := value_outcomes options.numbersAsText (Nat.le_refl options.maxDepth) input
    rw [h] at outcomes
    intro trailing
    cases outcomes with
    | error inner =>
      rw [trailing] at inner
      contradiction
    | limit meets =>
      obtain ⟨_, _, _, _⟩ := meets
      contradiction
  · cases h
    nofun

/-- What comes before the first byte that follows the root is a document. -/
theorem parse_take_of_trailing {options : Options} {input : List UInt8} {e : ParseError}
    (h : parse input options = .error e) (trailing : e.kind = .trailingBytes) :
    e.offset < input.length ∧ ∃ v, parse (input.take e.offset) options = .ok v := by
  rw [parse_read] at h
  cases read : root options (Input.ofBytes input).skipWhitespace with
  | error e' =>
    rw [read] at h
    cases h
    exact absurd trailing (root_error_kind read)
  | ok p =>
    obtain ⟨v, rest⟩ := p
    simp only [read, Except.bind] at h
    split at h
    · contradiction
    · rename_i left
      cases h
      obtain ⟨w, before, gap⟩ := (Input.ofBytes input).splits_skipWhitespace
      obtain ⟨t, ⟨text, depth⟩, taken⟩ := root_sound read
      obtain ⟨w', after, last⟩ := rest.splits_skipWhitespace
      have whole := (gap.trans taken).trans last
      have place : (rest.skipWhitespace.fail .trailingBytes).offset = (w ++ t ++ w').length :=
        whole.offset.trans (Nat.zero_add _)
      have bytes : input = w ++ t ++ w' ++ rest.skipWhitespace.bytes := whole.bytes
      rw [place]
      constructor
      · have beyond : 0 < rest.skipWhitespace.bytes.length :=
          List.length_pos_iff.2 (by simpa using left)
        have length := congrArg List.length bytes
        rw [List.length_append] at length
        omega
      · refine ⟨v, ?_⟩
        rw [bytes, List.take_left]
        exact parse_of_document (.mk before text after) depth

end Document

/-- A document is read alike whatever stands around it. After whitespace a text gives the same tree or
the same failure, further on by as much. A document followed by more whitespace gives its tree, and
followed by anything else it is refused at the first byte of that. A text refused for what follows
the root is a document up to there. -/
theorem parse_context (options : Options) :
    (∀ w input, Grammar.Space w →
      parse (w ++ input) options =
        (parse input options).mapError fun e => ⟨e.kind, e.byte, e.offset + w.length⟩) ∧
    (∀ input v s, parse input options = .ok v →
      parse (input ++ s) options =
        match s.dropWhile Byte.isWhitespace with
        | [] => .ok v
        | b :: _ =>
          .error ⟨.trailingBytes, b, input.length + (s.takeWhile Byte.isWhitespace).length⟩) ∧
    (∀ input e, parse input options = .error e → e.kind = .trailingBytes →
      e.offset < input.length ∧ ∃ v, parse (input.take e.offset) options = .ok v) := by
  refine ⟨fun w input space => ?_, fun input v s read => ?_, fun input e failed trailing => ?_⟩
  · exact Document.parse_after_space options space input
  · obtain ⟨text, depth⟩ := Document.parse_sound read
    exact Document.parse_append_of_document text depth s
  · exact Document.parse_take_of_trailing failed trailing

/-- A root that is no container, after a space, and a document that a comma follows. -/
theorem parse_context_comma :
    parse (Utf8.ofString " x") {} = .error ⟨.rootNotContainer, Byte.lowerX, 1⟩ ∧
      parse (Utf8.ofString "[] ,") {} = .error ⟨.trailingBytes, Byte.comma, 3⟩ ∧
      ∃ v, parse (Utf8.ofString "[] ") {} = .ok v := by
  obtain ⟨later, longer, cut⟩ := parse_context {}
  have refused : parse (Utf8.ofString "x") {} = .error ⟨.rootNotContainer, Byte.lowerX, 0⟩ := rfl
  have text : Grammar.DocumentText false (Utf8.ofString "[]") (.array []) :=
    .of (Grammar.Bracketed.empty Grammar.space_nil)
  have read : parse (Utf8.ofString "[]") {} = .ok (.array []) :=
    Document.parse_of_document text (by decide)
  have moved := later [Byte.space] (Utf8.ofString "x") (List.forall_mem_singleton.2 rfl)
  rw [refused] at moved
  have comma := longer _ _ (Utf8.ofString " ,") read
  exact ⟨moved, comma, (cut _ _ comma rfl).2⟩

end JsonTree
