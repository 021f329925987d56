/-!
UTF-8 over lists of bytes: writing a code point, and the length of the longest prefix that is whole
characters. A prefix ends before the first sequence that is cut short, overlong, a surrogate or above
`0x10FFFF`.
-/
namespace JsonTree.Utf8

/-- A byte that marks its place in a sequence and carries bits of the code point. Of bits beyond
eight the low eight are kept. -/
def tagged (tag : UInt8) (bits : UInt32) : UInt8 := tag ||| bits.toUInt8

/-- The code point is not checked: a surrogate, or a number above `0x10FFFF`, is written like any
other. -/
def encode (c : UInt32) : List UInt8 :=
  if c ≤ 0x7F then [c.toUInt8]
  else if c ≤ 0x7FF then [tagged 0xC0 (c >>> 6), tagged 0x80 (c &&& 0x3F)]
  else if c ≤ 0xFFFF then
    [tagged 0xE0 (c >>> 12), tagged 0x80 ((c >>> 6) &&& 0x3F), tagged 0x80 (c &&& 0x3F)]
  else
    [tagged 0xF0 (c >>> 18), tagged 0x80 ((c >>> 12) &&& 0x3F), tagged 0x80 ((c >>> 6) &&& 0x3F),
      tagged 0x80 (c &&& 0x3F)]

def ofChars (text : List Char) : List UInt8 := text.flatMap String.utf8EncodeChar

def ofString (s : String) : List UInt8 := ofChars s.toList

def isTrailing (b : UInt8) : Bool := 0x80 ≤ b && b ≤ 0xBF

/-- The second byte of a sequence of three. After `E0` the low values would be overlong, after `ED`
the high ones are surrogates. -/
def isSecondOfThree (lead b : UInt8) : Bool :=
  if lead = 0xE0 then 0xA0 ≤ b && b ≤ 0xBF
  else if lead = 0xED then 0x80 ≤ b && b ≤ 0x9F
  else isTrailing b

/-- The second byte of a sequence of four. After `F0` the low values would be overlong, after `F4`
the high ones exceed the last code point. -/
def isSecondOfFour (lead b : UInt8) : Bool :=
  if lead = 0xF0 then 0x90 ≤ b && b ≤ 0xBF
  else if lead = 0xF4 then 0x80 ≤ b && b ≤ 0x8F
  else isTrailing b

/-- The length of the longest prefix of whole characters, on top of `passed`. -/
def validFrom (passed : Nat) : List UInt8 → Nat
  | [] => passed
  | b :: rest =>
    if b ≤ 0x7F then validFrom (passed + 1) rest
    else match rest with
      | [] => passed
      | c :: rest =>
        if 0xC2 ≤ b && b ≤ 0xDF then
          if isTrailing c then validFrom (passed + 2) rest else passed
        else match rest with
          | [] => passed
          | d :: rest =>
            if 0xE0 ≤ b && b ≤ 0xEF then
              if isSecondOfThree b c && isTrailing d then validFrom (passed + 3) rest else passed
            else match rest with
              | [] => passed
              | e :: rest =>
                if 0xF0 ≤ b && b ≤ 0xF4 && isSecondOfFour b c && isTrailing d && isTrailing e then
                  validFrom (passed + 4) rest
                else passed

def validLength (bytes : List UInt8) : Nat := validFrom 0 bytes

end JsonTree.Utf8
