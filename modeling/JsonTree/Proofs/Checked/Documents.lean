import JsonTree.Proofs.Checked.Escapes
import JsonTree.Proofs.Checked.Numbers
import JsonTree.Proofs.Spelling

/-!
Documents read over one buffer with every unchecked step checked. The cursor moves by distances that
others found, slices are cut where others looked, and the count of open containers goes down on trust;
here each of these stops where it would leave the buffer or go below zero. None ever does: the checked
reading ends as the reading of documents ends, for every text and under all options.
-/
namespace JsonTree.Checked

/-- A place in a buffer, and how many containers are open there. It is never past the end. -/
structure Cursor (buffer : List UInt8) where
  position : Nat
  depth : Nat
  inside : position ≤ buffer.length

/-- A part of a reading: it moves the cursor, or ends the reading. -/
abbrev Walk (buffer : List UInt8) := StateT (Cursor buffer) (Except (Stop ParseError))

namespace Walk

variable {buffer : List UInt8} {α : Type}

def breach (b : Breach) : Walk buffer α := fun _ => Checked.breach b

/-- Fails with the byte at a place. Behind the end there is a NUL. -/
def failAt (kind : ErrorKind) (place : Nat) : Walk buffer α :=
  fun _ => refuse ⟨kind, buffer.getD place Byte.nul, place⟩

def fail (kind : ErrorKind) : Walk buffer α := fun c => failAt kind c.position c

def position : Walk buffer Nat := fun c => .ok (c.position, c)

def peek : Walk buffer UInt8 := fun c => .ok (buffer.getD c.position Byte.nul, c)

def atEnd : Walk buffer Bool := fun c => .ok (buffer.length ≤ c.position, c)

def move (n : Nat) : Walk buffer Unit := fun c =>
  if inside : c.position + n ≤ buffer.length then
    .ok ((), { c with position := c.position + n, inside })
  else Checked.breach .position

def slice (start stop : Nat) : Walk buffer (List UInt8) := fun c =>
  if start ≤ stop ∧ stop ≤ buffer.length then .ok ((buffer.take stop).drop start, c)
  else Checked.breach .slice

def remaining : Walk buffer (List UInt8) := do
  slice (← position) buffer.length

def advance : Walk buffer Unit := do
  if ← atEnd then fail .endOfInput else move 1

def advanceWhitespace : Walk buffer Unit := do
  move (Whitespace.wideRun (← remaining))

/-- Asks for a byte after whitespace, and stays in front of it. -/
def expect (b : UInt8) : Walk buffer Unit := do
  advanceWhitespace
  let found ← peek
  let ended ← atEnd
  if found = b && !ended then return ()
  else if ended then fail .endOfInput
  else fail .unexpectedByte

def enter (maxDepth : Nat) : Walk buffer Unit := fun c =>
  if maxDepth ≤ c.depth then fail .tooDeep c else .ok ((), { c with depth := c.depth + 1 })

def leave : Walk buffer Unit := fun c =>
  if c.depth = 0 then Checked.breach .depth else .ok ((), { c with depth := c.depth - 1 })

/-- The string that opens here. The way to its end is a difference of two places. -/
def string : Walk buffer String := do
  advance
  let start ← position
  match Quoted.bodyLength 0 false (← remaining) with
  | .error f => failAt f.kind (start + f.index)
  | .ok n =>
    let stop := start + n
    let body ← slice start stop
    let valid := Utf8.validLength body
    if valid < body.length then failAt .invalidUtf8 (start + valid)
    else match Escape.unescape 0 [] body with
      | .error (.breach b) => breach b
      | .error (.refused f) => failAt f.kind (start + f.index)
      | .ok bytes =>
        let here ← position
        if stop + 1 < here then breach .position
        else
          move (stop + 1 - here)
          match String.fromUTF8? ⟨bytes.toArray⟩ with
          | none => breach .text
          | some s => return s

/-- There have to be as many bytes as the word has, counted from its first. -/
def keyword (word : List UInt8) (value : Value) (mismatch : ErrorKind) : Walk buffer Value := do
  let start ← position
  if buffer.length ≤ start + (word.length - 1) then fail .truncatedKeyword
  else
    let found ← slice start (start + word.length)
    match (found.zip word).findIdx? fun p => p.1 != p.2 with
    | some k => failAt mismatch (start + k)
    | none =>
      move word.length
      return value

/-- A failure of a literal shows a byte of the literal. -/
def number (asText : Bool) : Walk buffer Value := do
  let start ← position
  let length := ((← remaining).takeWhile (!Byte.endsNumber ·)).length
  let lit ← slice start (start + length)
  match Number.decode asText lit with
  | .error (.breach b) => breach b
  | .error (.refused f) => fun _ => refuse (f.locate ⟨start, lit⟩)
  | .ok v =>
    move length
    return v

def nextElement (close : UInt8) : Walk buffer Bool := do
  advanceWhitespace
  let b ← peek
  if b = Byte.comma then
    advance
    return true
  else if b = close then
    advance
    return false
  else if ← atEnd then fail .endOfInput
  else fail .unexpectedByte

def element (item : Walk buffer α) (close : UInt8) : Walk buffer (α × Bool) := do
  let a ← item
  return (a, ← nextElement close)

/-- The items up to the closing byte. Each has to bring the cursor on. -/
def items (item : Walk buffer α) (close : UInt8) (done : List α) (c : Cursor buffer) :
    Except (Stop ParseError) (List α × Cursor buffer) :=
  match element item close c with
  | .error stop => .error stop
  | .ok ((a, true), next) =>
    if _ : c.position < next.position then items item close (a :: done) next
    else Checked.breach .stalled
  | .ok ((a, false), next) => .ok ((a :: done).reverse, next)
termination_by buffer.length - c.position
decreasing_by
  have inside := next.inside
  omega

def container (item : Walk buffer α) (close : UInt8) : Walk buffer (List α) := do
  advance
  advanceWhitespace
  if (← peek) = close then
    advance
    return []
  else items item close []

def member (value : Walk buffer Value) : Walk buffer (String × Value) := do
  expect Byte.quote
  let key ← string
  expect Byte.colon
  advance
  advanceWhitespace
  return (key, ← value)

/-- A container inside the limit. Where the count allows one, a reader of its values is at hand. -/
def nested (maxDepth : Nat) (value : Option (Walk buffer Value))
    (inside : Walk buffer Value → Walk buffer Value) : Walk buffer Value := do
  enter maxDepth
  match value with
  | none => breach .depth
  | some value =>
    let v ← inside value
    leave
    return v

def array (value : Walk buffer Value) : Walk buffer Value := do
  let item := do
    advanceWhitespace
    value
  return .array (← container item Byte.closeBracket)

def object (value : Walk buffer Value) : Walk buffer Value := do
  return .object (← container (member value) Byte.closeBrace)

def valueOver (options : Options) (below : Option (Walk buffer Value)) : Walk buffer Value := do
  let b ← peek
  if b = Byte.openBrace then nested options.maxDepth below object
  else if b = Byte.openBracket then nested options.maxDepth below array
  else if b = Byte.quote then return .string (← string)
  else if b = Byte.lowerT then keyword Document.trueWord (.bool true) .invalidBool
  else if b = Byte.lowerF then keyword Document.falseWord (.bool false) .invalidBool
  else if b = Byte.lowerN then keyword Document.nullWord .null .invalidNull
  else if Byte.startsNumber b then number options.numbersAsText
  else if ← atEnd then fail .endOfInput
  else fail .noValue

def value (options : Options) : (levels : Nat) → Walk buffer Value
  | 0 => valueOver options none
  | levels + 1 => valueOver options (some (value options levels))

def document (options : Options) : Walk buffer Value := do
  advanceWhitespace
  let b ← peek
  if b = Byte.openBrace || b = Byte.openBracket then
    let root ← value options options.maxDepth
    advanceWhitespace
    if ← atEnd then return root else fail .trailingBytes
  else fail .rootNotContainer

def literal : Walk buffer Value := do
  let v ← number false
  if ← atEnd then return v else fail .trailingBytes

end Walk

def Cursor.start (buffer : List UInt8) : Cursor buffer := ⟨0, 0, Nat.zero_le _⟩

/-- Reads a document with every step checked. -/
def parse (bytes : List UInt8) (options : Options) : Except (Stop ParseError) Value :=
  (Walk.document options (.start bytes)).map (·.1)

/-- Reads a number with every step checked. -/
def parseNumber (bytes : List UInt8) : Except (Stop ParseError) Value :=
  (Walk.literal (.start bytes)).map (·.1)

/-! ### The two readings beside each other -/

section

variable {buffer : List UInt8} {α β : Type}

/-- What is left from the cursor on. -/
def Cursor.input (c : Cursor buffer) : Input := ⟨c.position, buffer.drop c.position⟩

/-- A checked step ends as the unchecked one, with so many containers open. -/
inductive Agrees (depth : Nat) :
    Except (Stop ParseError) (α × Cursor buffer) → Except ParseError (α × Input) → Prop where
  | refused (e : ParseError) : Agrees depth (.error (.refused e)) (.error e)
  | read (a : α) {c : Cursor buffer} : c.depth = depth → Agrees depth (.ok (a, c)) (.ok (a, c.input))

/-- From every place with so many containers open, a walk goes as the reader reads. -/
def Walk.Follows (w : Walk buffer α) (depth : Nat)
    (read : Input → Except ParseError (α × Input)) : Prop :=
  ∀ c : Cursor buffer, c.depth = depth → Agrees depth (w c) (read c.input)

namespace Cursor

variable {c : Cursor buffer} {b : UInt8} {left : List UInt8}

theorem length_input (c : Cursor buffer) : c.input.bytes.length = buffer.length - c.position :=
  List.length_drop

theorem input_eq_nil (h : c.input.bytes = []) : buffer.length ≤ c.position := by
  rw [← List.drop_eq_nil_iff]
  exact h

theorem lt_of_input (h : c.input.bytes = b :: left) : c.position < buffer.length := by
  have some_left := congrArg List.length h
  rw [length_input, List.length_cons] at some_left
  omega

theorem getD_input (c : Cursor buffer) (n : Nat) :
    buffer.getD (c.position + n) Byte.nul = c.input.bytes.getD n Byte.nul := by
  simp [input, List.getD_eq_getElem?_getD]

theorem getD_of_input (h : c.input.bytes = b :: left) : buffer.getD c.position Byte.nul = b := by
  have here := getD_input c 0
  rw [h] at here
  exact here

theorem getD_of_nil (h : c.input.bytes = []) : buffer.getD c.position Byte.nul = Byte.nul := by
  have here := getD_input c 0
  rw [h] at here
  exact here

end Cursor

namespace Agrees

variable {c : Cursor buffer} {d d' : Nat} {w : Walk buffer α} {k : α → Walk buffer β}

theorem bind {x : Except ParseError (α × Input)} {next : α × Input → Except ParseError (β × Input)}
    (h : Agrees d (w c) x)
    (g : ∀ a c', w c = .ok (a, c') → c'.depth = d → Agrees d' (k a c') (next (a, c'.input))) :
    Agrees d' ((w >>= k) c) (x.bind next) := by
  change Agrees d' ((w c).bind fun p => k p.1 p.2) _
  generalize same : w c = result at h
  cases h with
  | refused e => exact .refused e
  | read a depth => exact g a _ same depth

theorem failed {e : ParseError} (h : Agrees d (w c) (.error e)) :
    Agrees d' ((w >>= k) c) (.error e) := by
  change Agrees d' ((w c).bind fun p => k p.1 p.2) _
  generalize w c = result at h
  cases h
  exact .refused e

/-- A step that cannot fail. -/
theorem after {a : α} {input : Input} {y : Except ParseError (β × Input)}
    (h : Agrees d (w c) (.ok (a, input)))
    (g : ∀ c', c'.input = input → c'.depth = d → Agrees d' (k a c') y) :
    Agrees d' ((w >>= k) c) y := by
  change Agrees d' ((w c).bind fun p => k p.1 p.2) _
  generalize w c = result at h
  cases h with
  | read a depth => exact g _ rfl depth

end Agrees

namespace Walk

variable {c : Cursor buffer} {d : Nat} {b close : UInt8} {left : List UInt8}

theorem position_bind (k : Nat → Walk buffer α) : (position >>= k) c = k c.position c := rfl

theorem peek_bind (k : UInt8 → Walk buffer α) :
    (peek >>= k) c = k (buffer.getD c.position Byte.nul) c := rfl

theorem atEnd_bind (k : Bool → Walk buffer α) :
    (atEnd >>= k) c = k (decide (buffer.length ≤ c.position)) c := rfl

theorem remaining_bind (k : List UInt8 → Walk buffer α) :
    (remaining >>= k) c = k c.input.bytes c := by
  have inside : c.position ≤ buffer.length ∧ buffer.length ≤ buffer.length := ⟨c.inside, Nat.le_refl _⟩
  have whole : (buffer.take buffer.length).drop c.position = c.input.bytes := by
    rw [List.take_length]
    rfl
  change (slice c.position buffer.length >>= k) c = _
  change ((slice c.position buffer.length c).bind fun p => k p.1 p.2) = _
  rw [slice, if_pos inside, whole]
  rfl

theorem slice_bind {n : Nat} (h : n ≤ c.input.bytes.length) (k : List UInt8 → Walk buffer α) :
    (slice c.position (c.position + n) >>= k) c = k (c.input.bytes.take n) c := by
  rw [Cursor.length_input] at h
  have within := c.inside
  have inside : c.position ≤ c.position + n ∧ c.position + n ≤ buffer.length := by omega
  have cut : (buffer.take (c.position + n)).drop c.position = c.input.bytes.take n := by
    rw [List.drop_take, Nat.add_sub_cancel_left]
    rfl
  change ((slice c.position (c.position + n) c).bind fun p => k p.1 p.2) = _
  rw [slice, if_pos inside, cut]
  rfl

theorem failAt_agrees (f : Fault) (c c' : Cursor buffer) :
    Agrees d (failAt (α := α) f.kind (c.position + f.index) c') (.error (f.locate c.input)) := by
  have same : f.locate c.input = ⟨f.kind, buffer.getD (c.position + f.index) Byte.nul,
      c.position + f.index⟩ := by
    rw [Cursor.getD_input]
    rfl
  rw [same]
  exact .refused _

theorem fail_agrees (kind : ErrorKind) (c : Cursor buffer) :
    Agrees d (fail (α := α) kind c) (.error (c.input.fail kind)) :=
  failAt_agrees ⟨kind, 0⟩ c c

theorem move_agrees {n : Nat} (h : n ≤ c.input.bytes.length) :
    Agrees c.depth (move n c) (.ok ((), c.input.skip n)) := by
  rw [Cursor.length_input] at h
  have within := c.inside
  have inside : c.position + n ≤ buffer.length := by omega
  have same : c.input.skip n = Cursor.input { c with position := c.position + n, inside } := by
    simp [Cursor.input, Input.skip]
  rw [move, dif_pos inside, same]
  exact .read () rfl

theorem advance_agrees (h : c.input.bytes = b :: left) :
    Agrees c.depth (advance c) (.ok ((), c.input.skip 1)) := by
  have before := Nat.not_le.2 (Cursor.lt_of_input h)
  rw [advance, atEnd_bind, decide_eq_false before]
  exact move_agrees (by rw [h]; simp)

theorem advanceWhitespace_agrees (c : Cursor buffer) :
    Agrees c.depth (advanceWhitespace c) (.ok ((), c.input.skipWhitespace)) := by
  rw [advanceWhitespace, remaining_bind]
  refine move_agrees ?_
  rw [Whitespace.wideRun_eq_run]
  exact (List.takeWhile_sublist _).length_le

/-- The byte asked for stays in front of the cursor. -/
theorem expect_agrees (b : UInt8) (c : Cursor buffer) :
    Agrees c.depth (expect b c) ((Reader.expect b c.input.skipWhitespace).map
      fun _ => ((), c.input.skipWhitespace)) := by
  refine (advanceWhitespace_agrees c).after fun c' same depth => ?_
  rw [← same, peek_bind, atEnd_bind, Reader.expect]
  cases bytes : c'.input.bytes with
  | nil =>
    rw [Cursor.getD_of_nil bytes, decide_eq_true (Cursor.input_eq_nil bytes)]
    simpa using! fail_agrees .endOfInput c'
  | cons found left =>
    rw [Cursor.getD_of_input bytes, decide_eq_false (Nat.not_le.2 (Cursor.lt_of_input bytes))]
    by_cases equal : found = b
    · simpa [equal] using! Agrees.read () depth
    · simpa [equal] using! fail_agrees .unexpectedByte c'

theorem expect_bind {d' : Nat} {k : Unit → Walk buffer α}
    {next : Input → Except ParseError (α × Input)} (depth : c.depth = d)
    (g : ∀ c' left, c'.input = c.input.skipWhitespace → c'.depth = d → c'.input.bytes = b :: left →
      Agrees d' (k () c') (next (c'.input.skip 1))) :
    Agrees d' ((expect b >>= k) c) ((Reader.expect b c.input.skipWhitespace).bind next) := by
  have first := expect_agrees b c
  rw [depth] at first
  cases asked : Reader.expect b c.input.skipWhitespace with
  | error e =>
    rw [asked] at first
    exact first.failed
  | ok rest =>
    have opens := Reader.expect_sound asked
    rw [asked] at first
    refine first.after fun c' same depth' => ?_
    have left := g c' rest.bytes same depth' (by rw [same]; exact opens.bytes)
    rwa [same, ← List.length_singleton (a := b), opens.skip_eq] at left

theorem nextElement_agrees (filled : close ≠ Byte.nul) (c : Cursor buffer) :
    Agrees c.depth (nextElement close c) (Reader.separator close c.input.skipWhitespace) := by
  refine (advanceWhitespace_agrees c).after fun c' same depth => ?_
  rw [← same, peek_bind, Reader.separator]
  cases bytes : c'.input.bytes with
  | nil =>
    rw [Cursor.getD_of_nil bytes, if_neg (by decide), if_neg filled.symm, atEnd_bind,
      decide_eq_true (Cursor.input_eq_nil bytes)]
    exact fail_agrees .endOfInput c'
  | cons found left =>
    rw [Cursor.getD_of_input bytes]
    dsimp only
    split
    · exact (advance_agrees bytes).after fun c'' same' depth' =>
        same' ▸ .read true (depth'.trans depth)
    · split
      · exact (advance_agrees bytes).after fun c'' same' depth' =>
          same' ▸ .read false (depth'.trans depth)
      · rw [atEnd_bind, decide_eq_false (Nat.not_le.2 (Cursor.lt_of_input bytes))]
        exact fail_agrees .unexpectedByte c'

theorem string_agrees (opens : c.input.bytes = b :: left) :
    Agrees c.depth (string c) (Quoted.read c.input) := by
  refine (advance_agrees opens).after fun c' same depth => ?_
  rw [position_bind, remaining_bind, Quoted.read, ← same]
  dsimp only
  cases found : Quoted.bodyLength 0 false c'.input.bytes with
  | error f => exact failAt_agrees f c' c'
  | ok n =>
    obtain ⟨body, after, parts, rfl, inner⟩ := Quoted.body_of_bodyLength found
    rw [if_neg (by decide), List.nil_append] at inner
    have reach : 0 + body.length + 1 ≤ c'.input.bytes.length := by simp [parts]
    have taken : c'.input.bytes.take (0 + body.length) = body := by
      rw [Nat.zero_add, parts, List.take_left]
    dsimp only
    rw [slice_bind (Nat.le_of_succ_le reach), taken, Quoted.decode]
    split
    · exact failAt_agrees ⟨.invalidUtf8, Utf8.validLength body⟩ c' c'
    · rename_i whole
      rw [Escape.unescape_eq]
      cases unescaped : JsonTree.Escape.unescape 0 [] body with
      | error f => exact failAt_agrees f c' c'
      | ok bytes =>
        -- The escapes were read, so that the bytes are a text whatever they spell.
        have valid : Utf8.validLength body = body.length :=
          Nat.le_antisymm (Utf8.validLength_le body) (Nat.le_of_not_lt whole)
        obtain ⟨s, text, _⟩ := Quoted.fromUTF8?_of_unescape inner valid unescaped
        have ahead : ¬ c'.position + (0 + body.length) + 1 < c'.position := by omega
        have distance : c'.position + (0 + body.length) + 1 - c'.position = 0 + body.length + 1 := by
          omega
        dsimp only [Except.mapError]
        rw [position_bind, if_neg ahead, distance, text]
        exact (move_agrees reach).after fun c'' same' depth' => same' ▸ .read s (depth'.trans depth)

theorem keyword_agrees {word : List UInt8} (some_letter : 0 < word.length) (v : Value)
    (mismatch : ErrorKind) (c : Cursor buffer) :
    Agrees c.depth (keyword word v mismatch c) (Document.keyword word v mismatch c.input) := by
  have size := c.length_input
  rw [keyword, position_bind, Document.keyword]
  by_cases short : buffer.length ≤ c.position + (word.length - 1)
  · rw [if_pos short, if_pos (by rw [List.length_take]; omega)]
    exact fail_agrees .truncatedKeyword c
  · rw [if_neg short, if_neg (by rw [List.length_take]; omega), slice_bind (by omega)]
    cases ((c.input.bytes.take word.length).zip word).findIdx? fun p => p.1 != p.2 with
    | some k => exact failAt_agrees ⟨mismatch, k⟩ c c
    | none =>
      exact (move_agrees (by omega)).after fun c' same depth => same ▸ .read v depth

theorem number_agrees (asText : Bool) (c : Cursor buffer) :
    Agrees c.depth (number asText c) (JsonTree.Number.read asText c.input) := by
  have whole := (List.takeWhile_prefix (!Byte.endsNumber ·) (l := c.input.bytes))
  rw [number, position_bind, remaining_bind, slice_bind whole.length_le,
    ← List.prefix_iff_eq_take.1 whole, Number.decode_eq, JsonTree.Number.read]
  cases JsonTree.Number.decode asText (c.input.bytes.takeWhile (!Byte.endsNumber ·)) with
  | error f => exact .refused _
  | ok v => exact (move_agrees whole.length_le).after fun c' same depth => same ▸ .read v depth

section

variable {item : Walk buffer α} {reader : Reader α}

theorem element_agrees (filled : close ≠ Byte.nul)
    (h : item.Follows d fun input => reader.read input.skipWhitespace) :
    (element item close).Follows d (Reader.separated reader close).read := by
  intro c depth
  rw [Reader.separated_read]
  refine (h c depth).bind fun a c' _ depth' => ?_
  have next := nextElement_agrees filled c'
  rw [depth'] at next
  exact next.bind fun more c'' _ depth'' => .read (a, more) depth''

/-- What was read is behind the cursor, so that each item brings it on. -/
theorem items_agrees (filled : close ≠ Byte.nul)
    (h : item.Follows d fun input => reader.read input.skipWhitespace) (done : List α)
    (c : Cursor buffer) (depth : c.depth = d) :
    Agrees d (items item close done c) (Reader.items reader close done c.input) := by
  induction size : buffer.length - c.position using Nat.strongRecOn generalizing done c with
  | ind size ih =>
    subst size
    rw [items, Reader.items_read]
    have step := element_agrees filled h c depth
    generalize read : (Reader.separated reader close).read c.input = result at step ⊢
    generalize element item close c = checked at step ⊢
    cases step with
    | refused e => exact .refused e
    | @read p next depth' =>
      obtain ⟨a, more⟩ := p
      have less := (Reader.separated reader close).progress read
      rw [Cursor.length_input, Cursor.length_input] at less
      have on : c.position < next.position := by omega
      cases more with
      | true =>
        simp only [dif_pos on]
        exact ih _ less (a :: done) next depth' rfl
      | false => exact .read _ depth'

/-- A closing byte right behind the opening one, or items. -/
theorem container_agrees (filled : close ≠ Byte.nul)
    (h : item.Follows d fun input => reader.read input.skipWhitespace) {c : Cursor buffer}
    (depth : c.depth = d) (opens : c.input.bytes = b :: left) :
    Agrees d (container item close c) (Reader.container reader close (c.input.skip 1)) := by
  refine (depth ▸ advance_agrees opens).after fun c₁ same₁ depth₁ => ?_
  refine (depth₁ ▸ advanceWhitespace_agrees c₁).after fun c₂ same₂ depth₂ => ?_
  rw [peek_bind, Reader.container, ← same₁, ← same₂]
  cases bytes : c₂.input.bytes with
  | nil =>
    rw [Cursor.getD_of_nil bytes, if_neg filled.symm, if_neg (by simp)]
    exact items_agrees filled h [] c₂ depth₂
  | cons found left =>
    rw [Cursor.getD_of_input bytes]
    by_cases closes : found = close
    · rw [if_pos closes, if_pos (by rw [closes]; rfl)]
      exact (depth₂ ▸ advance_agrees bytes).after fun c₃ same₃ depth₃ => same₃ ▸ .read [] depth₃
    · rw [if_neg closes, if_neg (by simpa using closes)]
      exact items_agrees filled h [] c₂ depth₂

end

section

variable {value : Walk buffer Value} {reader : Reader Value}

theorem member_agrees (h : value.Follows d reader.read) :
    (member value).Follows d fun input => (Document.memberReader reader).read input.skipWhitespace := by
  intro c depth
  dsimp only
  rw [Document.member_read]
  refine expect_bind depth fun c₁ left same₁ depth₁ opens => ?_
  rw [← same₁]
  refine (depth₁ ▸ string_agrees opens).bind fun key c₂ _ depth₂ => ?_
  refine expect_bind depth₂ fun c₃ left same₃ depth₃ colon => ?_
  refine (depth₃ ▸ advance_agrees colon).after fun c₄ same₄ depth₄ => ?_
  refine (depth₄ ▸ advanceWhitespace_agrees c₄).after fun c₅ same₅ depth₅ => ?_
  rw [← same₄, ← same₅]
  exact (h c₅ depth₅).bind fun v c₆ _ depth₆ => .read (key, v) depth₆

theorem array_agrees (h : value.Follows d reader.read) {c : Cursor buffer} (depth : c.depth = d)
    (opens : c.input.bytes = b :: left) :
    Agrees d (array value c) (Document.array reader c.input) := by
  rw [Document.array_read]
  have item : Walk.Follows (do advanceWhitespace; value) d
      fun input => reader.read input.skipWhitespace := by
    intro c depth
    refine (depth ▸ advanceWhitespace_agrees c).after fun c' same depth' => ?_
    have read := h c' depth'
    rwa [same] at read
  exact (container_agrees (by decide) item depth opens).bind fun vs c' _ depth' => .read _ depth'

theorem object_agrees (h : value.Follows d reader.read) {c : Cursor buffer} (depth : c.depth = d)
    (opens : c.input.bytes = b :: left) :
    Agrees d (object value c) (Document.object reader c.input) := by
  rw [Document.object_read]
  exact (container_agrees (by decide) (member_agrees h) depth opens).bind
    fun ms c' _ depth' => .read _ depth'

end

/-- The reader of nested values, at hand on both sides or on neither. -/
inductive Below (maxDepth depth : Nat) : Option (Walk buffer Value) → Option (Reader Value) → Prop where
  | closed : maxDepth ≤ depth → Below maxDepth depth none none
  | allowed {walk : Walk buffer Value} {reader : Reader Value} : depth < maxDepth →
      walk.Follows (depth + 1) reader.read → Below maxDepth depth (some walk) (some reader)

/-- What was entered is left again with the count it had. -/
theorem nested_agrees {maxDepth : Nat} {below : Option (Walk buffer Value)}
    {nest : Option (Reader Value)} (h : Below maxDepth d below nest)
    {inside : Walk buffer Value → Walk buffer Value}
    {read : Reader Value → Input → Except ParseError (Value × Input)}
    (g : ∀ {walk : Walk buffer Value} {reader : Reader Value}, walk.Follows (d + 1) reader.read →
      ∀ {c : Cursor buffer}, c.depth = d + 1 → c.input.bytes = b :: left →
        Agrees (d + 1) (inside walk c) (read reader c.input))
    {c : Cursor buffer} (depth : c.depth = d) (opens : c.input.bytes = b :: left) :
    Agrees d (nested maxDepth below inside c)
      (match nest with
      | none => .error (c.input.fail .tooDeep)
      | some reader => read reader c.input) := by
  cases h with
  | closed full =>
    have refused : (enter maxDepth c : Except _ (Unit × Cursor buffer)) = fail .tooDeep c :=
      if_pos (depth ▸ full)
    have failed := fail_agrees (α := Unit) (d := d) .tooDeep c
    rw [← refused] at failed
    exact failed.failed
  | @allowed walk reader room follows =>
    have entered : Agrees (d + 1) (enter maxDepth c) (.ok ((), c.input)) := by
      rw [enter, if_neg (by omega)]
      exact .read () (by rw [depth])
    refine entered.after fun c' same depth' => ?_
    rw [← same] at opens ⊢
    have within := g follows depth' opens
    change Agrees d ((inside walk >>= fun v => leave >>= fun _ => pure v) c') (read reader c'.input)
    generalize read reader c'.input = result at within ⊢
    change Agrees d ((inside walk c').bind fun p => (leave >>= fun _ => pure p.1) p.2) result
    generalize inside walk c' = checked at within ⊢
    cases within with
    | refused e => exact .refused e
    | @read v c'' depth'' =>
      have left : leave c'' = .ok ((), { c'' with depth := c''.depth - 1 }) := if_neg (by omega)
      change Agrees d ((leave c'').bind fun p => .ok (v, p.2)) (.ok (v, c''.input))
      rw [left]
      exact .read (c := { c'' with depth := c''.depth - 1 }) v (by simp [depth''])

theorem valueOver_agrees (options : Options) {below : Option (Walk buffer Value)}
    {nest : Option (Reader Value)} (h : Below options.maxDepth d below nest) :
    (valueOver options below).Follows d (Document.valueOver options.numbersAsText nest) := by
  intro c depth
  rw [valueOver, peek_bind, Document.valueOver.eq_def]
  cases bytes : c.input.bytes with
  | nil =>
    rw [Cursor.getD_of_nil bytes]
    change Agrees d ((atEnd >>= fun ended => if ended then fail .endOfInput else fail .noValue) c) _
    rw [atEnd_bind, decide_eq_true (Cursor.input_eq_nil bytes)]
    exact fail_agrees .endOfInput c
  | cons b left =>
    rw [Cursor.getD_of_input bytes]
    dsimp only
    split
    · exact nested_agrees h object_agrees depth bytes
    · split
      · exact nested_agrees h array_agrees depth bytes
      · split
        · rw [Document.string_read]
          exact (depth ▸ string_agrees bytes).bind fun s c' _ depth' => .read (Value.string s) depth'
        · split
          · exact depth ▸ keyword_agrees (by decide) _ _ c
          · split
            · exact depth ▸ keyword_agrees (by decide) _ _ c
            · split
              · exact depth ▸ keyword_agrees (by decide) _ _ c
              · split
                · exact depth ▸ number_agrees _ c
                · rw [atEnd_bind, decide_eq_false (Nat.not_le.2 (Cursor.lt_of_input bytes))]
                  exact fail_agrees .noValue c

/-- As many levels are left as the count of open containers allows. -/
theorem value_agrees (options : Options) (levels : Nat) {d : Nat}
    (left : d + levels = options.maxDepth) :
    (value options levels : Walk buffer Value).Follows d
      (Document.value options.numbersAsText levels).read := by
  induction levels generalizing d with
  | zero => exact valueOver_agrees options (.closed (by omega))
  | succ levels ih =>
    exact valueOver_agrees options (.allowed (by omega) (ih (by omega)))

/-- After the last part there is nothing more. -/
theorem ends_agrees {v : Value} (depth : c.depth = d) :
    Agrees d ((atEnd >>= fun ended => if ended then return v else fail .trailingBytes) c)
      (if c.input.bytes.isEmpty then .ok (v, c.input) else .error (c.input.fail .trailingBytes)) := by
  rw [atEnd_bind]
  cases bytes : c.input.bytes with
  | nil =>
    rw [decide_eq_true (Cursor.input_eq_nil bytes)]
    exact .read v depth
  | cons b left =>
    rw [decide_eq_false (Nat.not_le.2 (Cursor.lt_of_input bytes))]
    exact fail_agrees .trailingBytes c

theorem document_agrees (options : Options) (c : Cursor buffer) (depth : c.depth = 0) :
    Agrees 0 (document options c) ((Document.root options c.input.skipWhitespace).bind fun p =>
      if p.2.skipWhitespace.bytes.isEmpty then .ok (p.1, p.2.skipWhitespace)
      else .error (p.2.skipWhitespace.fail .trailingBytes)) := by
  refine (depth ▸ advanceWhitespace_agrees c).after fun c₁ same₁ depth₁ => ?_
  rw [← same₁, peek_bind, Document.root]
  cases bytes : c₁.input.bytes with
  | nil =>
    rw [Cursor.getD_of_nil bytes, if_neg (by decide), if_neg (by simp)]
    exact fail_agrees .rootNotContainer c₁
  | cons b left =>
    rw [Cursor.getD_of_input bytes]
    by_cases opens : b = Byte.openBrace ∨ b = Byte.openBracket
    · rw [if_pos (by simpa using opens), if_pos (by simpa using opens)]
      refine (value_agrees options options.maxDepth (by omega) c₁ depth₁).bind
        fun v c₂ _ depth₂ => ?_
      refine (depth₂ ▸ advanceWhitespace_agrees c₂).after fun c₃ same₃ depth₃ => ?_
      dsimp only
      rw [← same₃]
      exact ends_agrees depth₃
    · rw [if_neg (by simpa using opens), if_neg (by simpa using opens)]
      exact fail_agrees .rootNotContainer c₁

theorem literal_agrees (c : Cursor buffer) :
    Agrees c.depth (literal c) ((JsonTree.Number.read false c.input).bind fun p =>
      if p.2.bytes.isEmpty then .ok p else .error (p.2.fail .trailingBytes)) :=
  (number_agrees false c).bind fun _ _ _ depth => ends_agrees depth

end Walk

/-- Readings that agree end alike. -/
theorem Agrees.ends {d : Nat} {x : Except (Stop ParseError) (α × Cursor buffer)}
    {y : Except ParseError (α × Input)} (h : Agrees d x y) :
    x.map (·.1) = (y.map (·.1)).mapError .refused := by
  cases h <;> rfl

end

/-- No check of the checked reading ever fails: the cursor stays in the buffer, each slice lies in it,
each index lies in its literal, only digits have their value taken, no sum exceeds its word, the count
of open containers does not go below zero, and the bytes of a string are a text. So a document ends as
it does unchecked, for every text and all options, and so does a number. -/
theorem parse_unbreached (bytes : List UInt8) (options : Options) :
    (∀ b, parse bytes options ≠ .error (.breach b)) ∧ (∀ b, parseNumber bytes ≠ .error (.breach b)) ∧
      parse bytes options = (JsonTree.parse bytes options).mapError .refused ∧
      parseNumber bytes = (JsonTree.parseNumber bytes).mapError .refused := by
  have start : (Cursor.start bytes).input = Input.ofBytes bytes := rfl
  have document : parse bytes options = (JsonTree.parse bytes options).mapError .refused := by
    rw [parse, (Walk.document_agrees options (.start bytes) rfl).ends, start, Document.parse_read]
    cases Document.root options (Input.ofBytes bytes).skipWhitespace with
    | error e => rfl
    | ok p =>
      simp only [Except.bind]
      split <;> rfl
  have number : parseNumber bytes = (JsonTree.parseNumber bytes).mapError .refused := by
    rw [parseNumber, (Walk.literal_agrees (.start bytes)).ends, start, JsonTree.parseNumber]
    cases JsonTree.Number.read false (Input.ofBytes bytes) with
    | error e => rfl
    | ok p =>
      simp only [Except.bind]
      split <;> rfl
  refine ⟨fun b => ?_, fun b => ?_, document, number⟩
  · rw [document]
    cases JsonTree.parse bytes options <;> simp [Except.mapError]
  · rw [number]
    cases JsonTree.parseNumber bytes <;> simp [Except.mapError]

end JsonTree.Checked
