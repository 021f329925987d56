import JsonTree.Proofs.Checked.Marks
import JsonTree.Text.Escape

/-!
Escape sequences read with the value of each hex digit checked. A value is taken after all four bytes
were seen to be digits, so that no check fails, and the bytes are those that the reader gives.
-/
namespace JsonTree.Checked

/-- A stop as seen from further ahead. -/
def Stop.shift (n : Nat) : Stop Fault → Stop Fault
  | .breach b => .breach b
  | .refused f => .refused (f.shift n)

namespace Escape

def withDigit (n : UInt32) (b : UInt8) : Except (Stop Fault) UInt32 := do
  return (n <<< 4) ||| (← hexDigit b).toUInt32

def unit (text : List UInt8) : Except (Stop Fault) UInt32 :=
  let digits := text.take 4
  if digits.length < 4 then refuse ⟨.truncatedEscape, 0⟩
  else match digits.findIdx? (!Byte.isHexDigit ·) with
    | some k => refuse ⟨.invalidHex, k⟩
    | none => digits.foldlM withDigit 0

def codePoint (text : List UInt8) : Except (Stop Fault) (UInt32 × Nat) := do
  let high ← unit text
  if Surrogate.isLow high then refuse ⟨.unpairedSurrogate, 0⟩
  else if !Surrogate.isHigh high then return (high, 4)
  else if (text.drop 4).take 2 = [Byte.backslash, Byte.lowerU] then
    let low ← (unit (text.drop 6)).mapError (.shift 6)
    if Surrogate.isLow low then return (Surrogate.combine high low, 10)
    else refuse ⟨.unpairedSurrogate, 6⟩
  else refuse ⟨.unpairedSurrogate, 4⟩

def read (text : List UInt8) : Except (Stop Fault) (List UInt8 × Nat) :=
  match text with
  | [] => refuse ⟨.unknownEscape, 0⟩
  | b :: more =>
    if b = Byte.lowerU then do
      let (c, n) ← (codePoint more).mapError (.shift 1)
      return (Utf8.encode c, n + 1)
    else match Escape.simple? b with
      | some c => .ok ([c], 1)
      | none => refuse ⟨.unknownEscape, 0⟩

/-- The bytes of a body, with the escapes from `index` on still to be read. -/
def unescape (index : Nat) (done : List UInt8) (body : List UInt8) : Except (Stop Fault) (List UInt8) :=
  match body with
  | [] => .ok done.reverse
  | b :: rest =>
    if b = Byte.backslash then
      match read rest with
      | .error stop => .error (stop.shift (index + 1))
      | .ok (bytes, n) => unescape (index + 1 + n) (bytes.reverse ++ done) (rest.drop n)
    else unescape (index + 1) (b :: done) rest
termination_by body.length
decreasing_by all_goals simp only [List.length_drop, List.length_cons]; omega

theorem foldlM_withDigit {digits : List UInt8} (hex : ∀ b ∈ digits, Byte.isHexDigit b) (n : UInt32) :
    digits.foldlM withDigit n =
      .ok (digits.foldl (fun n b => (n <<< 4) ||| (Byte.hexValue b).toUInt32) n) := by
  induction digits generalizing n with
  | nil => rfl
  | cons b rest ih =>
    rw [List.foldlM_cons, withDigit, hexDigit_of_isHexDigit (hex b (by simp)), List.foldl_cons]
    exact ih (fun b hb => hex b (by simp [hb])) _

theorem unit_eq (text : List UInt8) : unit text = (JsonTree.Escape.unit text).mapError .refused := by
  simp only [unit, JsonTree.Escape.unit]
  split
  · rfl
  · cases found : (text.take 4).findIdx? (!Byte.isHexDigit ·) with
    | some k => rfl
    | none => exact foldlM_withDigit (by simpa using List.findIdx?_eq_none_iff.1 found) 0

theorem codePoint_eq (text : List UInt8) :
    codePoint text = (JsonTree.Escape.codePoint text).mapError .refused := by
  simp only [codePoint, JsonTree.Escape.codePoint, unit_eq]
  cases JsonTree.Escape.unit text with
  | error f => rfl
  | ok high =>
    simp only [bind, Except.bind, Except.mapError]
    split
    · rfl
    · split
      · rfl
      · by_cases opens : (text.drop 4).take 2 = [Byte.backslash, Byte.lowerU]
        · have second : text.drop 4 = 0x5C :: 0x75 :: text.drop 6 := by
            rw [← List.take_append_drop 2 (text.drop 4), opens, List.drop_drop]
            rfl
          rw [if_pos opens]
          simp only [second]
          cases JsonTree.Escape.unit (text.drop 6) with
          | error f => rfl
          | ok low =>
            dsimp only
            split <;> rfl
        · have other : ∀ second, text.drop 4 = 0x5C :: 0x75 :: second → False := by
            intro second same
            rw [same] at opens
            exact opens rfl
          rw [if_neg opens]
          simp only
          rfl

theorem read_eq (text : List UInt8) :
    read text = (JsonTree.Escape.read text).mapError .refused := by
  cases text with
  | nil => rfl
  | cons b more =>
    simp only [read, JsonTree.Escape.read, codePoint_eq]
    split
    · cases JsonTree.Escape.codePoint more <;> rfl
    · cases JsonTree.Escape.simple? b <;> rfl

theorem unescape_eq (index : Nat) (done body : List UInt8) :
    unescape index done body = (JsonTree.Escape.unescape index done body).mapError .refused := by
  fun_induction JsonTree.Escape.unescape index done body with
  | case1 => rw [unescape]; rfl
  | case2 index done rest f read =>
    rw [unescape, if_pos rfl, read_eq, read]
    rfl
  | case3 index done rest bytes n read ih =>
    rw [unescape, if_pos rfl, read_eq, read]
    exact ih
  | case4 index done b rest other ih =>
    rw [unescape, if_neg other]
    exact ih

end Escape

end JsonTree.Checked
