import JsonTree.Proofs.Numbers
import JsonTree.Proofs.Reading
import JsonTree.Proofs.Tree

/-!
Reading a document is recognising the grammar: each reader is sound for the relation of its kind of
text, and takes every text of it.
-/
namespace JsonTree

open Grammar

namespace Quoted

theorem bodyLength_of_body {body : List UInt8} (h : Body body) (passed : Nat) (rest : List UInt8) :
    bodyLength passed false (body ++ Byte.quote :: rest) = .ok (passed + body.length) := by
  induction h generalizing passed with
  | nil => rfl
  | plain other unquoted filled _ ih =>
    simp [bodyLength, other, unquoted, filled, ih, Nat.add_assoc, Nat.add_comm 1]
  | escaped _ ih =>
    simp [bodyLength, ih]
    omega

theorem body_of_bodyLength {passed n : Nat} {escaped : Bool} {bytes : List UInt8}
    (h : bodyLength passed escaped bytes = .ok n) :
    ∃ body rest, bytes = body ++ Byte.quote :: rest ∧ n = passed + body.length ∧
      Body ((if escaped then [Byte.backslash] else []) ++ body) := by
  -- Inside an escape the backslash has been passed already and is put back before the body.
  fun_induction bodyLength passed escaped bytes with
  | case1 => contradiction
  | case2 passed b rest ih =>
    obtain ⟨body, after, rfl, rfl, inner⟩ := ih h
    exact ⟨b :: body, after, rfl, by rw [List.length_cons]; omega, .escaped inner⟩
  | case3 passed escaped rest unescaped ih =>
    obtain ⟨body, after, rfl, rfl, inner⟩ := ih h
    refine ⟨Byte.backslash :: body, after, rfl, by rw [List.length_cons]; omega, ?_⟩
    rw [if_neg unescaped]
    exact inner
  | case4 passed escaped rest unescaped =>
    cases h
    rw [if_neg unescaped]
    exact ⟨[], rest, rfl, rfl, .nil⟩
  | case5 => contradiction
  | case6 passed escaped b rest unescaped other unquoted filled ih =>
    obtain ⟨body, after, rfl, rfl, inner⟩ := ih h
    refine ⟨b :: body, after, rfl, by rw [List.length_cons]; omega, ?_⟩
    rw [if_neg unescaped]
    exact .plain other unquoted filled inner

theorem read_sound {input rest : Input} {left : List UInt8} (opens : input.bytes = Byte.quote :: left)
    {s : String} (h : read input = .ok (s, rest)) : ∃ t, StringText t s ∧ input.Splits t rest := by
  simp only [read] at h
  split at h
  · contradiction
  · rename_i n found
    split at h
    · contradiction
    · rename_i decoded
      cases h
      obtain ⟨body, after, same, rfl, inner⟩ := body_of_bodyLength found
      have first : input.Splits [Byte.quote] (input.skip 1) := Input.splits_skip (u := left) opens
      have others : (input.skip 1).Splits (body ++ [Byte.quote]) _ :=
        Input.splits_skip (u := after) (by simpa using same)
      rw [Nat.zero_add, same, List.take_left] at decoded
      refine ⟨_, .quoted inner decoded, ?_⟩
      simpa using first.trans others

theorem read_of_splits {t : List UInt8} {s : String} (h : StringText t s) {input rest : Input}
    (g : input.Splits t rest) : read input = .ok (s, rest) := by
  obtain ⟨inner, decoded⟩ := h
  rename_i body
  have others : (input.skip 1).Splits (body ++ [Byte.quote]) rest :=
    Input.Splits.right (t := [Byte.quote]) g
  have found := bodyLength_of_body inner 0 rest.bytes
  have same : (input.skip 1).bytes = body ++ Byte.quote :: rest.bytes := by
    simpa using others.bytes
  have left := others.skip_eq
  rw [List.length_append] at left
  simp only [read, same, found, Nat.zero_add, List.take_left, decoded]
  exact congrArg (fun rest => Except.ok (s, rest)) left

end Quoted

namespace Number

variable {asText : Bool} {input rest : Input} {v : Value}

theorem isNumber_of_value {l : Literal} (h : l.value = .ok v) : v.isNumber := by
  cases l with
  | hex =>
    simp only [Literal.value, HexLiteral.value] at h
    split at h
    · cases h
      rfl
    · contradiction
  | decimal d =>
    simp only [Literal.value, DecimalLiteral.value, DecimalLiteral.valueAt] at h
    split at h
    · cases h
      rfl
    · cases same : d.float _ with
      | error =>
        rw [same] at h
        contradiction
      | ok =>
        rw [same] at h
        cases h
        rfl

theorem isNumber_of_decode {t : List UInt8} (h : decode asText t = .ok v) : v.isNumber := by
  obtain ⟨l, _, _, value⟩ := decode_eq_ok_iff.1 h
  cases asText with
  | true =>
    cases value
    rfl
  | false => exact isNumber_of_value value

theorem exists_literal (input : Input) : ∃ t rest, input.Splits t rest ∧
    (∀ b ∈ t, Byte.endsNumber b = false) ∧ rest.Delimited := by
  obtain ⟨t, left, whole, inner, stop⟩ := Byte.exists_run (!Byte.endsNumber ·) input.bytes
  have taken := Input.splits_skip whole
  refine ⟨t, _, taken, by simpa using inner, ?_⟩
  have same : t ++ (input.skip t.length).bytes = t ++ left := taken.bytes.symm.trans whole
  rw [Input.Delimited, List.append_cancel_left same]
  simpa using stop

theorem read_eq {t : List UInt8} (taken : input.Splits t rest)
    (inner : ∀ b ∈ t, Byte.endsNumber b = false) (delimited : rest.Delimited) :
    read asText input = match decode asText t with
      | .error f => .error (f.locate ⟨input.offset, t⟩)
      | .ok v => .ok (v, rest) := by
  have literal : input.bytes.takeWhile (!Byte.endsNumber ·) = t := by
    rw [taken.bytes]
    exact Byte.takeWhile_run (by simpa using inner) fun b hb => by simp [delimited b hb]
  cases decoded : decode asText t <;> simp only [read, literal, taken.skip_eq, decoded]

theorem read_sound (h : read asText input = .ok (v, rest)) :
    ∃ t, NumberText asText t v ∧ input.Splits t rest := by
  obtain ⟨t, rest', taken, inner, delimited⟩ := exists_literal input
  rw [read_eq taken inner delimited] at h
  split at h
  · contradiction
  · rename_i decoded
    cases h
    exact ⟨t, numberText_iff.2 decoded, taken⟩

theorem read_of_splits {t : List UInt8} (h : NumberText asText t v) (g : input.Splits t rest)
    (delimited : rest.Delimited) : read asText input = .ok (v, rest) := by
  rw [read_eq g h.inner delimited, h.decoded]

end Number

namespace Document

theorem string_read (input : Input) :
    string input = (Quoted.read input).bind fun p => .ok (.string p.1, p.2) := by
  unfold string
  cases Quoted.read input <;> rfl

theorem member_read (value : Reader Value) (input : Input) :
    (memberReader value).read input = (Reader.expect Byte.quote input).bind fun _ =>
      (Quoted.read input).bind fun k => (Reader.expect Byte.colon k.2.skipWhitespace).bind fun rest =>
        (value.read rest.skipWhitespace).bind fun v => .ok ((k.1, v.1), v.2) := by
  simp only [memberReader, member]
  cases Reader.expect Byte.quote input with
  | error => rfl
  | ok =>
    simp only [Except.bind]
    cases Quoted.read input with
    | error => rfl
    | ok k =>
      simp only
      cases Reader.expect Byte.colon k.2.skipWhitespace with
      | error => rfl
      | ok rest =>
        simp only
        cases value.read rest.skipWhitespace <;> rfl

theorem array_read (value : Reader Value) (input : Input) :
    array value input = (Reader.container value Byte.closeBracket (input.skip 1)).bind fun p =>
      .ok (.array p.1, p.2) := by
  unfold array
  cases Reader.container value Byte.closeBracket (input.skip 1) <;> rfl

theorem object_read (value : Reader Value) (input : Input) :
    object value input =
      (Reader.container (memberReader value) Byte.closeBrace (input.skip 1)).bind fun p =>
        .ok (.object p.1, p.2) := by
  unfold object
  cases Reader.container (memberReader value) Byte.closeBrace (input.skip 1) <;> rfl

theorem keyword_sound {word : List UInt8} {value v : Value} {mismatch : ErrorKind}
    {input rest : Input} (h : keyword word value mismatch input = .ok (v, rest)) :
    v = value ∧ input.Splits word rest := by
  simp only [keyword] at h
  split at h
  · contradiction
  · rename_i enough
    split at h
    · contradiction
    · rename_i equal
      cases h
      have found : input.bytes.take word.length = word := by
        simp only [List.length_take, List.findIdx?_eq_none_iff] at enough equal
        apply List.ext_getElem (by simp; omega)
        intro i hi hw
        have pair : ((input.bytes.take word.length)[i], word[i]) ∈
            (input.bytes.take word.length).zip word :=
          List.mem_iff_getElem.2 ⟨i, by rw [List.length_zip]; omega, List.getElem_zip⟩
        exact eq_of_beq (by simpa only [bne, Bool.not_eq_false'] using equal _ pair)
      have left := List.take_append_drop word.length input.bytes
      rw [found] at left
      exact ⟨rfl, Input.splits_skip left.symm⟩

theorem keyword_of_splits {word : List UInt8} {input rest : Input} (h : input.Splits word rest)
    (value : Value) (mismatch : ErrorKind) :
    keyword word value mismatch input = .ok (value, rest) := by
  have equal : (word.zip word).findIdx? (fun p => p.1 != p.2) = none := by
    rw [List.findIdx?_eq_none_iff]
    intro p hp
    obtain ⟨i, hi, rfl⟩ := List.mem_iff_getElem.1 hp
    simp
  simp [keyword, h.bytes, equal, h.skip_eq]

section

variable {value : Reader Value} {R : List UInt8 → Value → Prop} {input rest : Input}

theorem member_sound (sound : value.Sound R) : (memberReader value).Sound (MemberText R) := by
  intro input m rest h
  simp only [memberReader, member] at h
  split at h
  · contradiction
  · rename_i atQuote
    split at h
    · contradiction
    · rename_i atKey
      split at h
      · contradiction
      · rename_i atColon
        split at h
        · contradiction
        · rename_i atValue
          cases h
          obtain ⟨k, key, taken⟩ := Quoted.read_sound (Reader.expect_sound atQuote).bytes atKey
          obtain ⟨w, before, gap⟩ := Input.splits_skipWhitespace _
          obtain ⟨w', after, gap'⟩ := Input.splits_skipWhitespace _
          obtain ⟨t, inner, last⟩ := sound atValue
          refine ⟨_, .mk key before after inner, ?_⟩
          simpa using (((taken.trans gap).trans (Reader.expect_sound atColon)).trans gap').trans last

theorem array_sound (sound : value.Sound R) {left : List UInt8} {v : Value}
    (opens : input.bytes = Byte.openBracket :: left) (h : array value input = .ok (v, rest)) :
    ∃ t items, v = .array items ∧ Bracketed R Byte.openBracket Byte.closeBracket t items ∧
      input.Splits t rest := by
  unfold array at h
  split at h
  · contradiction
  · rename_i items left read
    cases h
    obtain ⟨t, inside, taken⟩ := Reader.container_sound sound opens read
    exact ⟨t, items, rfl, inside, taken⟩

theorem object_sound (sound : value.Sound R) {left : List UInt8} {v : Value}
    (opens : input.bytes = Byte.openBrace :: left) (h : object value input = .ok (v, rest)) :
    ∃ t members, v = .object members ∧
      Bracketed (MemberText R) Byte.openBrace Byte.closeBrace t members ∧ input.Splits t rest := by
  unfold object at h
  split at h
  · contradiction
  · rename_i members left read
    cases h
    obtain ⟨t, inside, taken⟩ := Reader.container_sound (member_sound sound) opens read
    exact ⟨t, members, rfl, inside, taken⟩

end

/-- The reading of a value, by what comes first. -/
inductive Branch (asText : Bool) (nested : Option (Reader Value)) (input : Input) :
    Except ParseError (Value × Input) → Prop where
  | nothing : input.bytes = [] → Branch asText nested input (.error (input.fail .endOfInput))
  | closed {b : UInt8} {left : List UInt8} : input.bytes = b :: left →
      b = Byte.openBrace ∨ b = Byte.openBracket → nested = none →
      Branch asText nested input (.error (input.fail .tooDeep))
  | object {left : List UInt8} {value : Reader Value} : input.bytes = Byte.openBrace :: left →
      nested = some value → Branch asText nested input (object value input)
  | array {left : List UInt8} {value : Reader Value} : input.bytes = Byte.openBracket :: left →
      nested = some value → Branch asText nested input (array value input)
  | string {left : List UInt8} : input.bytes = Byte.quote :: left →
      Branch asText nested input (string input)
  | keyword {word : List UInt8} {v : Value} {mismatch : ErrorKind} : KeywordText word v →
      mismatch = .invalidBool ∨ mismatch = .invalidNull →
      Branch asText nested input (keyword word v mismatch input)
  | number {b : UInt8} {left : List UInt8} : input.bytes = b :: left → Byte.startsNumber b →
      Branch asText nested input (Number.read asText input)
  | other {b : UInt8} {left : List UInt8} : input.bytes = b :: left →
      Branch asText nested input (.error (input.fail .noValue))

theorem valueOver_branch (asText : Bool) (nested : Option (Reader Value)) (input : Input) :
    Branch asText nested input (valueOver asText nested input) := by
  unfold valueOver
  split
  · exact .nothing ‹_›
  · rename_i b left bytes
    split
    · rename_i brace
      split
      · exact .closed bytes (.inl brace) rfl
      · exact .object (brace ▸ bytes) rfl
    · split
      · rename_i bracket
        split
        · exact .closed bytes (.inr bracket) rfl
        · exact .array (bracket ▸ bytes) rfl
      · split
        · rename_i quote
          exact .string (quote ▸ bytes)
        · split
          · exact .keyword .true (.inl rfl)
          · split
            · exact .keyword .false (.inl rfl)
            · split
              · exact .keyword .null (.inr rfl)
              · split
                · exact .number bytes ‹_›
                · exact .other bytes

/-- The levels left bound the nesting of what is read. -/
theorem valueOver_sound {asText : Bool} {levels : Nat} {nested : Option (Reader Value)}
    (sound : ∀ value ∈ nested, ∃ below, levels = below + 1 ∧
      value.Sound fun t v => ValueText asText t v ∧ v.nesting ≤ below)
    {input rest : Input} {v : Value} (h : valueOver asText nested input = .ok (v, rest)) :
    ∃ t, (ValueText asText t v ∧ v.nesting ≤ levels) ∧ input.Splits t rest := by
  have branch := valueOver_branch asText nested input
  generalize valueOver asText nested input = result at branch h
  cases branch with
  | nothing | closed | other => contradiction
  | object opens available =>
    obtain ⟨below, rfl, inner⟩ := sound _ available
    obtain ⟨t, members, rfl, inside, taken⟩ := object_sound inner opens h
    refine ⟨t, ⟨.object (inside.mono fun _ _ _ => MemberText.mono fun _ => And.left), ?_⟩, taken⟩
    exact Value.nesting_object_le.2 ⟨below, rfl, inside.all fun _ _ =>
      MemberText.value (p := (·.nesting ≤ below)) fun _ _ => And.right⟩
  | array opens available =>
    obtain ⟨below, rfl, inner⟩ := sound _ available
    obtain ⟨t, items, rfl, inside, taken⟩ := array_sound inner opens h
    refine ⟨t, ⟨.array (inside.mono fun _ _ _ => And.left), ?_⟩, taken⟩
    exact Value.nesting_array_le.2 ⟨below, rfl, inside.all fun _ _ => And.right⟩
  | string opens =>
    unfold string at h
    split at h
    · contradiction
    · rename_i read
      cases h
      obtain ⟨t, text, taken⟩ := Quoted.read_sound opens read
      exact ⟨t, ⟨.string text, Nat.zero_le _⟩, taken⟩
  | keyword word =>
    obtain ⟨rfl, taken⟩ := keyword_sound h
    exact ⟨_, ⟨.keyword word, by cases word <;> exact Nat.zero_le _⟩, taken⟩
  | number opens starts =>
    obtain ⟨t, text, taken⟩ := Number.read_sound h
    have flat := Value.nesting_of_isNumber (Number.isNumber_of_decode text.decoded)
    exact ⟨t, ⟨.number text, by omega⟩, taken⟩

theorem value_sound (asText : Bool) (levels : Nat) :
    (value asText levels).Sound fun t v => ValueText asText t v ∧ v.nesting ≤ levels := by
  induction levels with
  | zero =>
    intro input v rest h
    change valueOver asText none input = .ok (v, rest) at h
    exact valueOver_sound (by simp) h
  | succ below ih =>
    intro input v rest h
    change valueOver asText (some (value asText below)) input = .ok (v, rest) at h
    refine valueOver_sound ?_ h
    rintro _ ⟨⟩
    exact ⟨below, rfl, ih⟩

open Reader (Leads Takes)

theorem leads_member {R : List UInt8 → Value → Prop} {t : List UInt8} {m : String × Value}
    (h : MemberText R t m) : Leads t := by
  obtain ⟨⟨_, _⟩, _⟩ := h
  exact ⟨Byte.quote, rfl, by decide⟩

/-- A member reads its value from where that begins, once the key and the colon are read. -/
theorem member_inside (value : Reader Value) {k w w' t : List UInt8} {key : String}
    (name : StringText k key) (before : Space w) (after : Space w') (leads : Leads t)
    {input rest : Input} (g : input.Splits (k ++ w ++ Byte.colon :: w' ++ t) rest) :
    ∃ inside, inside.Splits t rest ∧ (memberReader value).read input =
      match value.read inside with
      | .error e => .error e
      | .ok (v, rest) => .ok ((key, v), rest) := by
  have atKey : ∃ middle, Reader.expect Byte.quote input = .ok middle := by
    obtain ⟨_, _⟩ := name
    obtain ⟨middle, opens, _⟩ := Reader.expect_of_splits
      (b := Byte.quote) (t := _) (by simpa only [List.append_assoc, List.cons_append] using g)
    exact ⟨middle, opens⟩
  obtain ⟨_, opens⟩ := atKey
  rw [List.append_assoc, List.append_assoc] at g
  have gap := g.right.skipWhitespace before (by rintro _ ⟨⟩; decide)
  obtain ⟨middle, colon, g'⟩ := Reader.expect_of_splits gap
  have gap' := g'.skipWhitespace after leads.stops
  have read := Quoted.read_of_splits name g.left
  refine ⟨_, gap', ?_⟩
  cases same : value.read middle.skipWhitespace <;>
    simp only [memberReader, member, opens, read, colon, same]

theorem member_takes {value : Reader Value} {t : List UInt8} {m : String × Value}
    (h : MemberText (fun t v => Leads t ∧ value.Takes t v) t m) :
    (memberReader value).Takes t m := by
  intro input rest g delimited
  obtain ⟨key, before, after, leads, takes⟩ := h
  obtain ⟨inside, taken, same⟩ := member_inside value key before after leads g
  rw [same, takes taken delimited]

theorem array_of_splits {value : Reader Value} {t : List UInt8} {items : List Value}
    (h : Bracketed (fun t v => Leads t ∧ value.Takes t v) Byte.openBracket Byte.closeBracket t items)
    {input rest : Input} (g : input.Splits t rest) :
    array value input = .ok (.array items, rest) := by
  simp only [array, Reader.container_of_splits (.inl rfl) h g]

theorem object_of_splits {value : Reader Value} {t : List UInt8} {members : List (String × Value)}
    (h : Bracketed (MemberText fun t v => Leads t ∧ value.Takes t v) Byte.openBrace
      Byte.closeBrace t members) {input rest : Input} (g : input.Splits t rest) :
    object value input = .ok (.object members, rest) := by
  have taken := h.mono fun _ _ _ member => And.intro (leads_member member) (member_takes member)
  simp only [object, Reader.container_of_splits (.inr rfl) taken g]

theorem leads_number {t : List UInt8} (starts : ∃ b ∈ t.head?, Byte.startsNumber b) : Leads t := by
  obtain ⟨b, first, number⟩ := starts
  have inside := Byte.endsNumber_of_startsNumber number
  simp only [Byte.endsNumber, Bool.or_eq_false_iff, beq_eq_false_iff_ne] at inside
  exact ⟨b, first, inside.1.2, inside.1.1.1.2, inside.2⟩

theorem leads_value {asText : Bool} {t : List UInt8} {v : Value} (h : ValueText asText t v) :
    Leads t := by
  cases h with
  | array inside => cases inside <;> exact ⟨Byte.openBracket, rfl, by decide⟩
  | object inside => cases inside <;> exact ⟨Byte.openBrace, rfl, by decide⟩
  | string text =>
    obtain ⟨_, _⟩ := text
    exact ⟨Byte.quote, rfl, by decide⟩
  | keyword word => cases word <;> exact ⟨_, rfl, by decide⟩
  | number text => exact leads_number text.starts

theorem exists_nested (asText : Bool) (levels : Nat) :
    ∃ nested, ∀ input, (value asText levels).read input = valueOver asText nested input := by
  cases levels with
  | zero => exact ⟨none, fun _ => rfl⟩
  | succ below => exact ⟨some (value asText below), fun _ => rfl⟩

section

variable {asText : Bool} {input : Input} {left : List UInt8}

theorem value_read_array (below : Nat) (opens : input.bytes = Byte.openBracket :: left) :
    (value asText (below + 1)).read input = array (value asText below) input := by
  change valueOver asText (some (value asText below)) input = _
  simp only [valueOver, opens]
  rfl

theorem value_read_object (below : Nat) (opens : input.bytes = Byte.openBrace :: left) :
    (value asText (below + 1)).read input = object (value asText below) input := by
  change valueOver asText (some (value asText below)) input = _
  simp only [valueOver, opens]
  rfl

theorem value_read_number (levels : Nat) {b : UInt8} (opens : input.bytes = b :: left)
    (starts : Byte.startsNumber b) :
    (value asText levels).read input = Number.read asText input := by
  obtain ⟨nested, reads⟩ := exists_nested asText levels
  have others := Byte.startsNumber_ne starts
  rw [reads]
  simp only [valueOver, opens, others, starts, if_false, if_true]

end

theorem array_taken {asText : Bool} {below : Nat} {t : List UInt8} {items : List Value}
    (h : Bracketed (fun t v => ValueText asText t v ∧ (value asText below).Takes t v)
      Byte.openBracket Byte.closeBracket t items) {input rest : Input} (g : input.Splits t rest) :
    (value asText (below + 1)).read input = .ok (.array items, rest) := by
  have taken := h.mono fun _ _ _ both => And.intro (leads_value both.1) both.2
  obtain ⟨left, opens⟩ := Reader.exists_opening h g
  rw [value_read_array below opens, array_of_splits taken g]

theorem object_taken {asText : Bool} {below : Nat} {t : List UInt8}
    {members : List (String × Value)}
    (h : Bracketed (MemberText fun t v => ValueText asText t v ∧ (value asText below).Takes t v)
      Byte.openBrace Byte.closeBrace t members) {input rest : Input} (g : input.Splits t rest) :
    (value asText (below + 1)).read input = .ok (.object members, rest) := by
  have taken := h.mono fun _ _ _ =>
    MemberText.mono (S := fun t v => Leads t ∧ (value asText below).Takes t v) fun _ both =>
      And.intro (leads_value both.1) both.2
  obtain ⟨left, opens⟩ := Reader.exists_opening h g
  rw [value_read_object below opens, object_of_splits taken g]

theorem value_takes {asText : Bool} {t : List UInt8} {v : Value} (h : ValueText asText t v) :
    ∀ levels, v.nesting ≤ levels → (value asText levels).Takes t v := by
  -- By induction on the text, for all levels at once: a container leaves one less to its items.
  refine ValueText.induct (P := fun t v => ∀ levels, v.nesting ≤ levels →
    (value asText levels).Takes t v) ?array ?object ?string ?keyword ?number h
  case array =>
    intro t items inside levels deep input rest g _
    obtain ⟨below, rfl, each⟩ := Value.nesting_array_le.1 deep
    exact array_taken (inside.mono fun _ v hv => And.imp_right fun takes =>
      takes below (each v hv)) g
  case object =>
    intro t members inside levels deep input rest g _
    obtain ⟨below, rfl, each⟩ := Value.nesting_object_le.1 deep
    exact object_taken (inside.mono fun _ m hm => MemberText.mono fun _ => And.imp_right fun takes =>
      takes below (each m hm)) g
  case string =>
    intro t s text levels _ input rest g _
    obtain ⟨nested, reads⟩ := exists_nested asText levels
    have read : string input = .ok (.string s, rest) := by
      simp only [string, Quoted.read_of_splits text g]
    obtain ⟨_, _⟩ := text
    have opens := g.bytes
    rw [List.cons_append] at opens
    rw [reads]
    simpa only [valueOver, opens] using! read
  case keyword =>
    intro t v word levels _ input rest g _
    obtain ⟨nested, reads⟩ := exists_nested asText levels
    have opens := g.bytes
    rw [reads]
    cases word with
    | true => simpa only [valueOver, opens] using! keyword_of_splits g (.bool true) .invalidBool
    | false => simpa only [valueOver, opens] using! keyword_of_splits g (.bool false) .invalidBool
    | null => simpa only [valueOver, opens] using! keyword_of_splits g .null .invalidNull
  case number =>
    intro t v text levels _ input rest g delimited
    have read := Number.read_of_splits text g delimited
    obtain ⟨b, first, starts⟩ := text.starts
    obtain ⟨more, rfl⟩ := List.head?_eq_some_iff.1 first
    rw [value_read_number levels g.bytes starts, read]

theorem head_container {asText : Bool} {t : List UInt8} {v : Value} (h : ContainerText asText t v) :
    t.head? = some Byte.openBrace ∨ t.head? = some Byte.openBracket := by
  cases v with
  | array => exact .inr (by cases h <;> rfl)
  | object => exact .inl (by cases h <;> rfl)
  | _ => exact h.elim

theorem value_of_container {asText : Bool} {t : List UInt8} {v : Value}
    (h : ContainerText asText t v) : ValueText asText t v := by
  cases v with
  | array => exact .array h
  | object => exact .object h
  | _ => exact h.elim

theorem container_of_kind {asText : Bool} {t : List UInt8} {v : Value} (h : ValueText asText t v)
    (kind : v.isArray ∨ v.isObject) : ContainerText asText t v := by
  cases h with
  | array inside => exact inside
  | object inside => exact inside
  | string => simp [Value.isArray, Value.isObject, Value.kind] at kind
  | keyword word => cases word <;> simp [Value.isArray, Value.isObject, Value.kind] at kind
  | number text =>
    have number := Number.isNumber_of_decode text.decoded
    cases v <;> simp_all [Value.isArray, Value.isObject, Value.isNumber, Value.kind]

theorem container_of_value {asText : Bool} {t : List UInt8} {v : Value} (h : ValueText asText t v)
    (opens : t.head? = some Byte.openBrace ∨ t.head? = some Byte.openBracket) :
    ContainerText asText t v := by
  cases h with
  | array inside => exact inside
  | object inside => exact inside
  | string text =>
    obtain ⟨_, _⟩ := text
    simp only [List.cons_append, List.head?_cons, Option.some.injEq] at opens
    exact absurd opens (by decide)
  | keyword word => cases word <;> exact absurd opens (by decide)
  | number text =>
    obtain ⟨b, first, starts⟩ := text.starts
    have others := Byte.startsNumber_ne starts
    rw [first] at opens
    simp_all

theorem root_sound {options : Options} {input rest : Input} {v : Value}
    (h : root options input = .ok (v, rest)) :
    ∃ t, (ContainerText options.numbersAsText t v ∧ v.nesting ≤ options.maxDepth) ∧
      input.Splits t rest := by
  unfold root at h
  split at h
  · rename_i opens
    obtain ⟨t, ⟨text, depth⟩, taken⟩ := value_sound _ _ h
    obtain ⟨b, first, _⟩ := leads_value text
    obtain ⟨more, rfl⟩ := List.head?_eq_some_iff.1 first
    rw [taken.bytes] at opens
    exact ⟨_, ⟨container_of_value text opens, depth⟩, taken⟩
  · contradiction

/-- A container ends by itself, so it is read whatever follows it. -/
theorem value_of_splits {asText : Bool} {levels : Nat} {t : List UInt8} {v : Value}
    (h : ContainerText asText t v) (depth : v.nesting ≤ levels) {input rest : Input}
    (g : input.Splits t rest) : (value asText levels).read input = .ok (v, rest) := by
  cases v with
  | array items =>
    obtain ⟨below, rfl, each⟩ := Value.nesting_array_le.1 depth
    exact array_taken (Bracketed.mono (fun _ v hv text => ⟨text, value_takes text below (each v hv)⟩)
      h) g
  | object members =>
    obtain ⟨below, rfl, each⟩ := Value.nesting_object_le.1 depth
    exact object_taken (Bracketed.mono (fun _ m hm => MemberText.mono fun _ text =>
      ⟨text, value_takes text below (each m hm)⟩) h) g
  | _ => exact h.elim

theorem root_of_splits {options : Options} {t : List UInt8} {v : Value}
    (h : ContainerText options.numbersAsText t v) (depth : v.nesting ≤ options.maxDepth)
    {input rest : Input} (g : input.Splits t rest) : root options input = .ok (v, rest) := by
  have opens := head_container h
  obtain ⟨b, first, _⟩ := leads_value (value_of_container h)
  obtain ⟨more, rfl⟩ := List.head?_eq_some_iff.1 first
  have same : input.bytes.head? = (b :: more).head? := by rw [g.bytes]; rfl
  rw [root, same, if_pos opens]
  exact value_of_splits h depth g

theorem parse_read (input : List UInt8) (options : Options) :
    parse input options = (root options (Input.ofBytes input).skipWhitespace).bind fun p =>
      if p.2.skipWhitespace.bytes.isEmpty then .ok p.1
      else .error (p.2.skipWhitespace.fail .trailingBytes) := by
  unfold parse
  cases root options (Input.ofBytes input).skipWhitespace <;> rfl

theorem parse_sound {input : List UInt8} {options : Options} {v : Value}
    (h : parse input options = .ok v) :
    DocumentText options.numbersAsText input v ∧ v.nesting ≤ options.maxDepth := by
  unfold parse at h
  split at h
  · contradiction
  · rename_i v rest read
    simp only at h
    split at h
    · rename_i none_left
      cases h
      obtain ⟨w, before, gap⟩ := (Input.ofBytes input).splits_skipWhitespace
      obtain ⟨t, ⟨text, depth⟩, taken⟩ := root_sound read
      obtain ⟨w', after, left⟩ := rest.splits_skipWhitespace
      have whole : input = _ := ((gap.trans taken).trans left).bytes
      rw [List.isEmpty_iff.1 none_left, List.append_nil] at whole
      exact ⟨whole ▸ .mk before text after, depth⟩
    · contradiction

/-- Where the root begins and ends, whatever follows it. -/
theorem root_inside {asText : Bool} {w t : List UInt8} {v : Value} (before : Space w)
    (inner : ContainerText asText t v) (left : List UInt8) :
    (Input.ofBytes (w ++ t ++ left)).skipWhitespace.Splits t ⟨w.length + t.length, left⟩ := by
  have whole : (Input.ofBytes (w ++ t ++ left)).Splits (w ++ t) ⟨w.length + t.length, left⟩ :=
    ⟨rfl, by simp [Input.ofBytes]⟩
  exact whole.skipWhitespace before (leads_value (value_of_container inner)).stops

/-- A document and whatever follows it: the first byte that is not whitespace is refused. -/
theorem parse_append_of_document {input : List UInt8} {options : Options} {v : Value}
    (h : DocumentText options.numbersAsText input v) (depth : v.nesting ≤ options.maxDepth)
    (s : List UInt8) : parse (input ++ s) options =
      match s.dropWhile Byte.isWhitespace with
      | [] => .ok v
      | b :: _ =>
        .error ⟨.trailingBytes, b, input.length + (s.takeWhile Byte.isWhitespace).length⟩ := by
  obtain ⟨before, inner, after⟩ := h
  rename_i w t w'
  have inside := root_inside before inner (w' ++ s)
  have rest : Input.skipWhitespace ⟨w.length + t.length, w' ++ s⟩ =
      ⟨(w ++ t ++ w').length + (s.takeWhile Byte.isWhitespace).length,
        s.dropWhile Byte.isWhitespace⟩ := by
    rw [Input.skipWhitespace_append after, Input.skipWhitespace_mk, List.length_append,
      List.length_append]
  rw [parse_read, List.append_assoc (w ++ t), root_of_splits inner depth inside]
  simp only [Except.bind, rest]
  cases s.dropWhile Byte.isWhitespace <;> rfl

theorem parse_of_document {input : List UInt8} {options : Options} {v : Value}
    (h : DocumentText options.numbersAsText input v) (depth : v.nesting ≤ options.maxDepth) :
    parse input options = .ok v := by
  simpa using parse_append_of_document h depth []

end Document

/-- The accepted documents are those of the grammar that nest no deeper than allowed, and the tree is
the one that the grammar gives. -/
theorem parse_eq_ok_iff (input : List UInt8) (options : Options) (v : Value) :
    parse input options = .ok v ↔
      DocumentText options.numbersAsText input v ∧ v.nesting ≤ options.maxDepth :=
  ⟨Document.parse_sound, fun h => Document.parse_of_document h.1 h.2⟩

end JsonTree
