import JsonTree.Number.Decode
import JsonTree.Reader
import JsonTree.Text.Quoted

/-!
Reading a document: one container with whitespace around it. A container inside another takes one
level of nesting, and the reader of values is defined by recursion on the levels that are left.
-/
namespace JsonTree

structure Options where
  /-- Keep numbers as the text of their literals. -/
  numbersAsText : Bool := false
  /-- How deep containers may nest. The root counts as one. -/
  maxDepth : Nat := 1024
  deriving DecidableEq, Repr

namespace Document

/-- Reads a word letter by letter. Too few bytes left are reported before a wrong letter. -/
def keyword (word : List UInt8) (value : Value) (mismatch : ErrorKind) (input : Input) :
    Except ParseError (Value × Input) :=
  let found := input.bytes.take word.length
  if found.length < word.length then .error (input.fail .truncatedKeyword)
  else match (found.zip word).findIdx? fun p => p.1 != p.2 with
    | some k => .error ((Fault.mk mismatch k).locate input)
    | none => .ok (value, input.skip word.length)

def trueWord : List UInt8 := ['t', 'r', 'u', 'e'].map Char.toUInt8
def falseWord : List UInt8 := ['f', 'a', 'l', 's', 'e'].map Char.toUInt8
def nullWord : List UInt8 := ['n', 'u', 'l', 'l'].map Char.toUInt8

def string (input : Input) : Except ParseError (Value × Input) :=
  match Quoted.read input with
  | .error e => .error e
  | .ok (s, rest) => .ok (.string s, rest)

def array (value : Reader Value) (input : Input) : Except ParseError (Value × Input) :=
  match Reader.container value Byte.closeBracket (input.skip 1) with
  | .error e => .error e
  | .ok (items, rest) => .ok (.array items, rest)

def member (value : Reader Value) (input : Input) : Except ParseError ((String × Value) × Input) :=
  match Reader.expect Byte.quote input with
  | .error e => .error e
  | .ok _ =>
    match Quoted.read input with
    | .error e => .error e
    | .ok (key, rest) =>
      match Reader.expect Byte.colon rest.skipWhitespace with
      | .error e => .error e
      | .ok rest =>
        match value.read rest.skipWhitespace with
        | .error e => .error e
        | .ok (v, rest) => .ok ((key, v), rest)

theorem length_member_lt (value : Reader Value) {input rest : Input} {m : String × Value}
    (h : member value input = .ok (m, rest)) : rest.bytes.length < input.bytes.length := by
  unfold member at h
  split at h
  · contradiction
  · rename_i atQuote
    split at h
    · contradiction
    · rename_i atKey
      split at h
      · contradiction
      · rename_i atColon
        split at h
        · contradiction
        · rename_i atValue
          cases h
          have key := Quoted.length_read_lt
            (Nat.lt_of_le_of_lt (Nat.zero_le _) (Reader.length_expect_lt atQuote)) atKey
          have colon := Reader.length_expect_lt atColon
          have last := value.progress atValue
          have gap := Input.length_skipWhitespace_le
          exact Nat.lt_of_lt_of_le last (Nat.le_trans (gap _) (Nat.le_trans (Nat.le_of_lt colon)
            (Nat.le_trans (gap _) (Nat.le_of_lt key))))

def memberReader (value : Reader Value) : Reader (String × Value) :=
  ⟨member value, length_member_lt value⟩

def object (value : Reader Value) (input : Input) : Except ParseError (Value × Input) :=
  match Reader.container (memberReader value) Byte.closeBrace (input.skip 1) with
  | .error e => .error e
  | .ok (members, rest) => .ok (.object members, rest)

/-- Reads a value by its first byte. `nested` reads the values of a container and is missing where no
level is left. -/
def valueOver (asText : Bool) (nested : Option (Reader Value)) (input : Input) :
    Except ParseError (Value × Input) :=
  match input.bytes with
  | [] => .error (input.fail .endOfInput)
  | b :: _ =>
    if b = Byte.openBrace then
      match nested with
      | none => .error (input.fail .tooDeep)
      | some value => object value input
    else if b = Byte.openBracket then
      match nested with
      | none => .error (input.fail .tooDeep)
      | some value => array value input
    else if b = Byte.quote then string input
    else if b = Byte.lowerT then keyword trueWord (.bool true) .invalidBool input
    else if b = Byte.lowerF then keyword falseWord (.bool false) .invalidBool input
    else if b = Byte.lowerN then keyword nullWord .null .invalidNull input
    else if Byte.startsNumber b then Number.read asText input
    else .error (input.fail .noValue)

theorem length_keyword_lt {word : List UInt8} {value v : Value} {mismatch : ErrorKind}
    {input rest : Input} (some_letter : 0 < word.length)
    (h : keyword word value mismatch input = .ok (v, rest)) :
    rest.bytes.length < input.bytes.length := by
  simp only [keyword] at h
  split at h
  · contradiction
  · rename_i enough
    split at h
    · contradiction
    · cases h
      simp only [List.length_take, Input.length_skip] at enough ⊢
      omega

theorem length_string_lt {input rest : Input} {v : Value} (left : 0 < input.bytes.length)
    (h : string input = .ok (v, rest)) : rest.bytes.length < input.bytes.length := by
  unfold string at h
  split at h
  · contradiction
  · rename_i read
    cases h
    exact Quoted.length_read_lt left read

theorem length_array_lt (value : Reader Value) {input rest : Input} {v : Value}
    (left : 0 < input.bytes.length) (h : array value input = .ok (v, rest)) :
    rest.bytes.length < input.bytes.length := by
  unfold array at h
  split at h
  · contradiction
  · rename_i read
    cases h
    exact Reader.length_container_skip_lt left read

theorem length_object_lt (value : Reader Value) {input rest : Input} {v : Value}
    (left : 0 < input.bytes.length) (h : object value input = .ok (v, rest)) :
    rest.bytes.length < input.bytes.length := by
  unfold object at h
  split at h
  · contradiction
  · rename_i read
    cases h
    exact Reader.length_container_skip_lt left read

theorem length_valueOver_lt (asText : Bool) (nested : Option (Reader Value)) {input rest : Input}
    {v : Value} (h : valueOver asText nested input = .ok (v, rest)) :
    rest.bytes.length < input.bytes.length := by
  unfold valueOver at h
  split at h
  · contradiction
  · rename_i b more bytes
    have left : 0 < input.bytes.length := by simp [bytes]
    split at h
    · split at h
      · contradiction
      · exact length_object_lt _ left h
    · split at h
      · split at h
        · contradiction
        · exact length_array_lt _ left h
      · split at h
        · exact length_string_lt left h
        · split at h
          · exact length_keyword_lt (by decide) h
          · split at h
            · exact length_keyword_lt (by decide) h
            · split at h
              · exact length_keyword_lt (by decide) h
              · split at h
                · exact Number.length_read_lt h
                · contradiction

/-- Reads a value in which containers nest at most `levels` deep. -/
def value (asText : Bool) : (levels : Nat) → Reader Value
  | 0 => ⟨fun input => valueOver asText none input, length_valueOver_lt asText none⟩
  | levels + 1 =>
    ⟨fun input => valueOver asText (some (value asText levels)) input,
      length_valueOver_lt asText (some (value asText levels))⟩

/-- The root has to be a container. -/
def root (options : Options) (input : Input) : Except ParseError (Value × Input) :=
  if input.bytes.head? = some Byte.openBrace ∨ input.bytes.head? = some Byte.openBracket then
    (value options.numbersAsText options.maxDepth).read input
  else .error (input.fail .rootNotContainer)

end Document

def parse (bytes : List UInt8) (options : Options := {}) : Except ParseError Value :=
  match Document.root options (Input.ofBytes bytes).skipWhitespace with
  | .error e => .error e
  | .ok (v, rest) =>
    let left := rest.skipWhitespace
    if left.bytes.isEmpty then .ok v else .error (left.fail .trailingBytes)

def parseText (text : String) (options : Options := {}) : Except ParseError Value :=
  parse (Utf8.ofString text) options

end JsonTree
