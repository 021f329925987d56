import JsonTree.Text.Escape

/-!
Strings between quotes. Reading first finds the closing quote, then asks whether the body is UTF-8,
and only then looks into its escapes, so an unclosed string is reported before anything inside it.
-/
namespace JsonTree.Quoted

/-- The length of a body, up to its closing quote. A backslash takes the next byte with it, whatever
that is. -/
def bodyLength (passed : Nat) (escaped : Bool) : List UInt8 → Except Fault Nat
  | [] => .error ⟨.endOfInput, passed⟩
  | b :: rest =>
    if escaped then bodyLength (passed + 1) false rest
    else if b = Byte.backslash then bodyLength (passed + 1) true rest
    else if b = Byte.quote then .ok passed
    else if b = Byte.nul then .error ⟨.nulInString, passed⟩
    else bodyLength (passed + 1) false rest

/-- The text of a body. Escapes are ASCII and stand for whole characters, so the bytes put together
are UTF-8 again whenever the body is. -/
def decode (body : List UInt8) : Except Fault String :=
  let valid := Utf8.validLength body
  if valid < body.length then .error ⟨.invalidUtf8, valid⟩
  else match Escape.unescape 0 [] body with
    | .error f => .error f
    | .ok bytes =>
      match String.fromUTF8? ⟨bytes.toArray⟩ with
      | none => .error ⟨.invalidUtf8, 0⟩
      | some s => .ok s

/-- Reads the string whose opening quote is the first byte left. -/
def read (input : Input) : Except ParseError (String × Input) :=
  let start := input.skip 1
  match bodyLength 0 false start.bytes with
  | .error f => .error (f.locate start)
  | .ok n =>
    match decode (start.bytes.take n) with
    | .error f => .error (f.locate start)
    | .ok s => .ok (s, start.skip (n + 1))

theorem length_read_lt {input rest : Input} {s : String} (left : 0 < input.bytes.length)
    (h : read input = .ok (s, rest)) : rest.bytes.length < input.bytes.length := by
  simp only [read] at h
  split at h
  · contradiction
  · split at h
    · contradiction
    · cases h
      simp only [Input.length_skip]
      omega

/-- How a character is written: quotes, backslashes and control characters are escaped. -/
def encodeChar (c : Char) : List Char :=
  if c = '"' then ['\\', '"']
  else if c = '\\' then ['\\', '\\']
  else if c = '\x08' then ['\\', 'b']
  else if c = '\x0C' then ['\\', 'f']
  else if c = '\n' then ['\\', 'n']
  else if c = '\r' then ['\\', 'r']
  else if c = '\t' then ['\\', 't']
  else if c.toNat < 0x20 then
    ['\\', 'u', '0', '0', (c.toNat / 16).digitChar, (c.toNat % 16).digitChar]
  else [c]

def encode (text : List Char) : List Char := '"' :: text.flatMap encodeChar ++ ['"']

end JsonTree.Quoted
