import JsonTree.Byte
import JsonTree.Input
import JsonTree.Text.Surrogate
import JsonTree.Text.Utf8

/-!
Escape sequences in the body of a string. A reader of one escape starts just after the backslash and
says which bytes the escape stands for and how many it took.
-/
namespace JsonTree.Escape

/-- The byte that a one-letter escape stands for. -/
def simple? (b : UInt8) : Option UInt8 :=
  match Char.ofUInt8 b with
  | 'n' => some 0x0A
  | 't' => some 0x09
  | 'r' => some 0x0D
  | '\\' => some 0x5C
  | '"' => some 0x22
  | '/' => some 0x2F
  | 'b' => some 0x08
  | 'f' => some 0x0C
  | _ => none

/-- The sixteen bits given by four hex digits. -/
def unit (text : List UInt8) : Except Fault UInt32 :=
  let digits := text.take 4
  if digits.length < 4 then .error ⟨.truncatedEscape, 0⟩
  else match digits.findIdx? (!Byte.isHexDigit ·) with
    | some k => .error ⟨.invalidHex, k⟩
    | none => .ok (digits.foldl (fun n b => (n <<< 4) ||| (Byte.hexValue b).toUInt32) 0)

/-- A code point after the letter `u`: four digits, or two escapes for the halves of a pair. -/
def codePoint (text : List UInt8) : Except Fault (UInt32 × Nat) :=
  match unit text with
  | .error f => .error f
  | .ok high =>
    if Surrogate.isLow high then .error ⟨.unpairedSurrogate, 0⟩
    else if !Surrogate.isHigh high then .ok (high, 4)
    else match text.drop 4 with
      | 0x5C :: 0x75 :: second =>
        match unit second with
        | .error f => .error (f.shift 6)
        | .ok low =>
          if Surrogate.isLow low then .ok (Surrogate.combine high low, 10)
          else .error ⟨.unpairedSurrogate, 6⟩
      | _ => .error ⟨.unpairedSurrogate, 4⟩

def read (text : List UInt8) : Except Fault (List UInt8 × Nat) :=
  match text with
  | [] => .error ⟨.unknownEscape, 0⟩
  | b :: more =>
    if b = Byte.lowerU then
      match codePoint more with
      | .error f => .error (f.shift 1)
      | .ok (c, n) => .ok (Utf8.encode c, n + 1)
    else match simple? b with
      | some c => .ok ([c], 1)
      | none => .error ⟨.unknownEscape, 0⟩

/-- The bytes a body stands for. `index` is where it begins and `done` holds what stands before it,
the latest byte first. -/
def unescape (index : Nat) (done : List UInt8) (body : List UInt8) : Except Fault (List UInt8) :=
  match body with
  | [] => .ok done.reverse
  | b :: rest =>
    if b = Byte.backslash then
      match read rest with
      | .error f => .error (f.shift (index + 1))
      | .ok (bytes, n) => unescape (index + 1 + n) (bytes.reverse ++ done) (rest.drop n)
    else unescape (index + 1) (b :: done) rest
termination_by body.length
decreasing_by all_goals simp only [List.length_drop, List.length_cons]; omega

end JsonTree.Escape
