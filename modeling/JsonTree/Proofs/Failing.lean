import JsonTree.Proofs.Brackets
import JsonTree.Proofs.Faults

/-!
Where a reading fails. Each failure of a document is that of one leaf of it, at a place reached by
what was read before: a string, a keyword, a number, or a byte that has no place there. The limit on
nesting is met at a bracket that as many containers are open before as it allows, and a reading that
does not meet it ends alike under every higher limit.
-/
namespace JsonTree

/-- The kinds of failure that one byte shows by itself, wherever it stands. -/
def ErrorKind.isStructural : ErrorKind → Bool
  | noValue | rootNotContainer | unexpectedByte | trailingBytes | tooDeep | endOfInput => true
  | _ => false

/-- The kinds of failure inside the root, where the limit is not met. -/
def ErrorKind.isInner : ErrorKind → Bool
  | rootNotContainer | trailingBytes | tooDeep => false
  | _ => true

/-- What fails at the first byte left. -/
inductive Leaf (asText : Bool) (input : Input) : ParseError → Prop where
  | structural {kind : ErrorKind} : kind.isStructural → Leaf asText input (input.fail kind)
  | string {left : List UInt8} {e : ParseError} : input.bytes = Byte.quote :: left →
      Quoted.read input = .error e → Leaf asText input e
  | keyword {word : List UInt8} {v : Value} {mismatch : ErrorKind} {e : ParseError} :
      Grammar.KeywordText word v → mismatch = .invalidBool ∨ mismatch = .invalidNull →
      Document.keyword word v mismatch input = .error e → Leaf asText input e
  | number {b : UInt8} {left : List UInt8} {e : ParseError} : input.bytes = b :: left →
      Byte.startsNumber b → Number.read asText input = .error e → Leaf asText input e

def Input.Fails (asText : Bool) (input : Input) (e : ParseError) : Prop :=
  ∃ t rest, input.Splits t rest ∧ Leaf asText rest e

/-- A bracket comes where `levels` containers are open. -/
inductive MeetsLimit (levels : Nat) (input : Input) : ParseError → Prop where
  | mk {t left : List UInt8} {rest : Input} {b : UInt8} : input.Splits t rest →
      Document.Opens levels t → rest.bytes = b :: left →
      b = Byte.openBrace ∨ b = Byte.openBracket → MeetsLimit levels input (rest.fail .tooDeep)

/-- How a reading under a limit ends, beside one of the same input under a higher limit. -/
inductive Outcomes (asText : Bool) (levels : Nat) (input : Input) {α : Type} :
    Except ParseError α → Except ParseError α → Prop where
  | ok (a : α) : Outcomes asText levels input (.ok a) (.ok a)
  | error {e : ParseError} : e.kind.isInner → input.Fails asText e →
      Outcomes asText levels input (.error e) (.error e)
  | limit {e : ParseError} {y : Except ParseError α} : MeetsLimit levels input e →
      Outcomes asText levels input (.error e) y

open Document (Opens)

variable {asText : Bool} {levels : Nat} {input rest : Input} {t : List UInt8} {e : ParseError}

theorem Leaf.fails (h : Leaf asText input e) : input.Fails asText e := ⟨[], input, .refl input, h⟩

theorem Input.Splits.fails (h : input.Splits t rest) (g : rest.Fails asText e) :
    input.Fails asText e := by
  obtain ⟨u, last, taken, leaf⟩ := g
  exact ⟨t ++ u, last, h.trans taken, leaf⟩

theorem Input.fails_skipWhitespace (h : input.skipWhitespace.Fails asText e) :
    input.Fails asText e := by
  obtain ⟨w, _, skipped⟩ := input.splits_skipWhitespace
  exact skipped.fails h

theorem MeetsLimit.fails (h : MeetsLimit levels input e) : input.Fails asText e := by
  obtain ⟨taken, _⟩ := h
  exact taken.fails (Leaf.structural rfl).fails

namespace Outcomes

variable {α β : Type} {x y : Except ParseError α}

theorem past {n : Nat} (opens : Opens n t) (taken : input.Splits t rest)
    (h : Outcomes asText levels rest x y) : Outcomes asText (n + levels) input x y := by
  cases h with
  | ok a => exact .ok a
  | error inner fails => exact .error inner (taken.fails fails)
  | limit meets =>
    obtain ⟨before, opened, bytes, bracket⟩ := meets
    exact .limit (.mk (taken.trans before) (opens.append opened) bytes bracket)

/-- What closes all that it opens may come before. -/
theorem after (opens : Opens 0 t) (taken : input.Splits t rest)
    (h : Outcomes asText levels rest x y) : Outcomes asText levels input x y := by
  have whole := h.past opens taken
  rwa [Nat.zero_add] at whole

theorem gap (h : Outcomes asText levels input.skipWhitespace x y) :
    Outcomes asText levels input x y := by
  obtain ⟨w, space, skipped⟩ := input.splits_skipWhitespace
  exact h.after (Document.opens_space space) skipped

theorem bind {f g : α → Except ParseError β} (h : Outcomes asText levels input x y)
    (next : ∀ a, x = .ok a → Outcomes asText levels input (f a) (g a)) :
    Outcomes asText levels input (x.bind f) (y.bind g) := by
  cases h with
  | ok a => exact next a rfl
  | error inner fails => exact .error inner fails
  | limit meets => exact .limit meets

/-- A reading that no limit bears on. -/
theorem refl (h : ∀ e, x = .error e → e.kind.isInner ∧ Leaf asText input e) :
    Outcomes asText levels input x x := by
  cases x with
  | ok a => exact .ok a
  | error e => exact .error (h e rfl).1 (h e rfl).2.fails

end Outcomes

namespace Quoted

theorem read_outcomes {left : List UInt8} (opens : input.bytes = Byte.quote :: left) :
    Outcomes asText levels input (read input) (read input) := by
  refine .refl fun e failed => ⟨?_, .string opens failed⟩
  obtain ⟨f, inside, rfl⟩ := read_inString failed
  have kind := inside.kind
  change f.kind.isInner
  cases same : f.kind <;> simp_all [ErrorKind.isInString, ErrorKind.isInner]

end Quoted

namespace Reader

variable {α : Type} {item item' : Reader α} {close : UInt8}

def ReadsAlike (asText : Bool) (levels : Nat) (item item' : Reader α) : Prop :=
  ∀ input, Outcomes asText levels input (item.read input) (item'.read input)

/-- What is read closes all that it opens. -/
def Balanced (item : Reader α) : Prop := item.Sound fun t _ => Opens 0 t

theorem expect_outcomes (b : UInt8) :
    Outcomes asText levels input (expect b input) (expect b input) := by
  refine .refl fun e failed => ?_
  unfold expect at failed
  split at failed
  · cases failed
    exact ⟨rfl, .structural rfl⟩
  · split at failed
    · contradiction
    · cases failed
      exact ⟨rfl, .structural rfl⟩

theorem separator_outcomes (close : UInt8) :
    Outcomes asText levels input (separator close input) (separator close input) := by
  refine .refl fun e failed => ?_
  unfold separator at failed
  split at failed
  · cases failed
    exact ⟨rfl, .structural rfl⟩
  · split at failed
    · contradiction
    · split at failed
      · contradiction
      · cases failed
        exact ⟨rfl, .structural rfl⟩

theorem separated_outcomes (close : UInt8) (balanced : item.Balanced)
    (alike : item.ReadsAlike asText levels item') :
    (separated item close).ReadsAlike asText levels (separated item' close) := by
  intro input
  rw [separated_read, separated_read]
  refine ((alike _).bind fun p read => ?_).gap
  obtain ⟨t, opens, taken⟩ := balanced read
  refine Outcomes.after opens taken (Outcomes.gap ?_)
  exact (separator_outcomes close).bind fun q _ => .ok _

theorem items_outcomes (balanced : item.Balanced) (alike : item.ReadsAlike asText levels item')
    (done : List α) (input : Input) :
    Outcomes asText levels input (items item close done input) (items item' close done input) := by
  -- Each item leaves less, and as long as the limit is not met both readings go on behind it.
  induction size : input.bytes.length using Nat.strongRecOn generalizing done input with
  | ind size ih =>
    subst size
    rw [items_read, items_read]
    refine (separated_outcomes close balanced alike input).bind fun p read => ?_
    obtain ⟨⟨a, more⟩, rest⟩ := p
    have less := (separated item close).progress read
    obtain ⟨t, padded, taken⟩ := separated_sound balanced read
    have opens := Document.opens_padded (fun _ _ => id) padded
    cases more with
    | true =>
      have comma : Opens 0 [Byte.comma] := Document.opens_plain (by decide)
      exact (ih _ less _ _ rfl).after (opens.append comma) taken
    | false => exact .ok _

theorem container_outcomes (balanced : item.Balanced)
    (alike : item.ReadsAlike asText levels item') (input : Input) :
    Outcomes asText levels input (container item close input) (container item' close input) := by
  simp only [container]
  split
  · exact .ok _
  · exact (items_outcomes balanced alike [] _).gap

end Reader

namespace Document

theorem keyword_outcomes {word : List UInt8} {v : Value} {mismatch : ErrorKind}
    (text : Grammar.KeywordText word v) (kind : mismatch = .invalidBool ∨ mismatch = .invalidNull) :
    Outcomes asText levels input (keyword word v mismatch input)
      (keyword word v mismatch input) := by
  refine .refl fun e failed => ⟨?_, .keyword text kind failed⟩
  simp only [keyword] at failed
  split at failed
  · cases failed
    rfl
  · split at failed
    · cases failed
      rcases kind with rfl | rfl <;> rfl
    · contradiction

theorem number_outcomes {b : UInt8} {left : List UInt8} (bytes : input.bytes = b :: left)
    (starts : Byte.startsNumber b) :
    Outcomes asText levels input (Number.read asText input) (Number.read asText input) := by
  refine .refl fun e failed => ⟨?_, .number bytes starts failed⟩
  simp only [Number.read] at failed
  split at failed
  · rename_i f decoded
    cases failed
    change f.kind.isInner
    rcases (Number.decode_inLiteral decoded).kind with same | same <;> rw [same] <;> rfl
  · contradiction

section

variable {value value' : Reader Value}

theorem member_outcomes (alike : value.ReadsAlike asText levels value') :
    (memberReader value).ReadsAlike asText levels (memberReader value') := by
  intro input
  rw [member_read, member_read]
  refine (Reader.expect_outcomes Byte.quote).bind fun _ atQuote => ?_
  have opens := (Reader.expect_sound atQuote).bytes
  refine (Quoted.read_outcomes opens).bind fun k atKey => ?_
  obtain ⟨t, text, taken⟩ := Quoted.read_sound opens atKey
  refine Outcomes.after (opens_string text) taken (Outcomes.gap ?_)
  refine (Reader.expect_outcomes Byte.colon).bind fun middle atColon => ?_
  have colon : Opens 0 [Byte.colon] := opens_plain (by decide)
  refine Outcomes.after colon (Reader.expect_sound atColon) (Outcomes.gap ?_)
  exact (alike _).bind fun v _ => .ok _

theorem member_balanced (balanced : value.Balanced) : (memberReader value).Balanced := by
  intro input m rest read
  obtain ⟨t, text, taken⟩ := member_sound balanced read
  exact ⟨t, opens_member (fun _ _ => id) text, taken⟩

theorem array_outcomes (balanced : value.Balanced) (alike : value.ReadsAlike asText levels value')
    {left : List UInt8} (opens : input.bytes = Byte.openBracket :: left) :
    Outcomes asText (levels + 1) input (array value input) (array value' input) := by
  rw [array_read, array_read, Nat.add_comm]
  have taken : input.Splits [Byte.openBracket] (input.skip 1) := Input.splits_skip (u := left) opens
  refine Outcomes.past (opens_bracket (.inr rfl)) taken ?_
  exact (Reader.container_outcomes balanced alike _).bind fun p _ => .ok _

theorem object_outcomes (balanced : value.Balanced) (alike : value.ReadsAlike asText levels value')
    {left : List UInt8} (opens : input.bytes = Byte.openBrace :: left) :
    Outcomes asText (levels + 1) input (object value input) (object value' input) := by
  rw [object_read, object_read, Nat.add_comm]
  have taken : input.Splits [Byte.openBrace] (input.skip 1) := Input.splits_skip (u := left) opens
  refine Outcomes.past (opens_bracket (.inl rfl)) taken ?_
  exact (Reader.container_outcomes (member_balanced balanced) (member_outcomes alike) _).bind
    fun p _ => .ok _

end

theorem value_balanced (asText : Bool) (levels : Nat) : (value asText levels).Balanced := by
  intro input v rest read
  obtain ⟨t, ⟨text, _⟩, taken⟩ := value_sound asText levels read
  exact ⟨t, opens_value text, taken⟩

def Flat (input : Input) : Prop :=
  ∀ b ∈ input.bytes.head?, ¬ (b = Byte.openBrace ∨ b = Byte.openBracket)

theorem flat_or_bracket (input : Input) : Flat input ∨
    ∃ b left, input.bytes = b :: left ∧ (b = Byte.openBrace ∨ b = Byte.openBracket) := by
  unfold Flat
  cases bytes : input.bytes with
  | nil => exact .inl nofun
  | cons b left =>
    by_cases bracket : b = Byte.openBrace ∨ b = Byte.openBracket
    · exact .inr ⟨b, left, rfl, bracket⟩
    · exact .inl (by rintro _ ⟨⟩; exact bracket)

/-- Where no bracket comes first, the levels that are left do not matter. -/
theorem value_read_flat (levels : Nat) (flat : Flat input) :
    (value asText levels).read input = valueOver asText none input := by
  obtain ⟨nested, reads⟩ := exists_nested asText levels
  rw [reads]
  unfold valueOver
  split
  · rfl
  · rename_i b left bytes
    obtain ⟨brace, bracket⟩ := not_or.1 (flat b (by rw [bytes]; rfl))
    simp only [if_neg brace, if_neg bracket]

theorem flat_outcomes (flat : Flat input) (higher : Nat) :
    Outcomes asText levels input ((value asText levels).read input)
      ((value asText higher).read input) := by
  rw [value_read_flat levels flat, value_read_flat higher flat]
  have branch := valueOver_branch asText none input
  generalize valueOver asText none input = result at branch ⊢
  cases branch with
  | nothing | other =>
    refine .refl ?_
    rintro _ ⟨⟩
    exact ⟨rfl, .structural rfl⟩
  | closed bytes bracket => exact absurd bracket (flat _ (by rw [bytes]; rfl))
  | object _ available | array _ available => contradiction
  | string opens =>
    rw [string_read]
    exact (Quoted.read_outcomes opens).bind fun p _ => .ok _
  | keyword word kind => exact keyword_outcomes word kind
  | number bytes starts => exact number_outcomes bytes starts

/-- A reading that does not meet its limit ends alike under every higher one. -/
theorem value_outcomes (asText : Bool) {levels higher : Nat} (le : levels ≤ higher) :
    (value asText levels).ReadsAlike asText levels (value asText higher) := by
  induction levels generalizing higher with
  | zero =>
    intro input
    obtain flat | ⟨b, left, bytes, bracket⟩ := flat_or_bracket input
    · exact flat_outcomes flat higher
    · have meets : (value asText 0).read input = .error (input.fail .tooDeep) := by
        change valueOver asText none input = _
        unfold valueOver
        rw [bytes]
        rcases bracket with rfl | rfl <;> rfl
      rw [meets]
      exact .limit (.mk (.refl input) opens_nil bytes bracket)
  | succ below ih =>
    intro input
    obtain ⟨above, rfl⟩ : ∃ above, higher = above + 1 := ⟨higher - 1, by omega⟩
    have alike := ih (Nat.le_of_succ_le_succ le)
    have balanced := value_balanced asText below
    obtain flat | ⟨b, left, bytes, rfl | rfl⟩ := flat_or_bracket input
    · exact flat_outcomes flat (above + 1)
    · rw [value_read_object below bytes, value_read_object above bytes]
      exact object_outcomes balanced alike bytes
    · rw [value_read_array below bytes, value_read_array above bytes]
      exact array_outcomes balanced alike bytes

theorem value_fails {levels : Nat} (h : (value asText levels).read input = .error e) :
    input.Fails asText e := by
  have outcomes := value_outcomes asText (Nat.le_refl levels) input
  rw [h] at outcomes
  cases outcomes with
  | error _ fails => exact fails
  | limit meets => exact meets.fails

/-- A document fails at one of its leaves, or where something is missing or left over. -/
theorem parse_fails {bytes : List UInt8} {options : Options} (h : parse bytes options = .error e) :
    (Input.ofBytes bytes).Fails options.numbersAsText e := by
  unfold parse at h
  split at h
  · rename_i failed
    cases h
    refine Input.fails_skipWhitespace ?_
    unfold root at failed
    split at failed
    · exact value_fails failed
    · cases failed
      exact (Leaf.structural rfl).fails
  · rename_i read
    obtain ⟨t, _, taken⟩ := root_sound read
    refine Input.fails_skipWhitespace (taken.fails (Input.fails_skipWhitespace ?_))
    simp only at h
    split at h
    · contradiction
    · cases h
      exact (Leaf.structural rfl).fails

end Document

end JsonTree
