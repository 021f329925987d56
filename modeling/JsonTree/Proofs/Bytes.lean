import JsonTree.Byte
import Mathlib.Data.List.TakeWhile

/-! Facts about the classes of bytes, checked on every byte, and about runs of bytes of a class. -/
namespace JsonTree.Byte

/-- There are few enough bytes to check them all. -/
instance (priority := low) decidableForall {P : UInt8 → Prop} [DecidablePred P] :
    Decidable (∀ b, P b) :=
  decidable_of_iff (∀ b : BitVec 8, P (.ofBitVec b))
    ⟨fun h b => h b.toBitVec, fun h b => h (.ofBitVec b)⟩

/-- The bytes of a run are checked one by one, not all bytes for being in it. -/
instance (priority := high) decidableForallMem {P : UInt8 → Prop} [DecidablePred P]
    (run : List UInt8) : Decidable (∀ b ∈ run, P b) :=
  List.decidableBAll P run

theorem endsNumber_of_isWhitespace {b : UInt8} (h : isWhitespace b) : endsNumber b := by
  simp [endsNumber, h]

theorem endsNumber_of_startsNumber {b : UInt8} (h : startsNumber b) : endsNumber b = false := by
  revert b
  decide +kernel

/-- No value of another kind opens with a byte that a number opens with. -/
theorem startsNumber_ne {b : UInt8} (h : startsNumber b) :
    b ≠ openBrace ∧ b ≠ openBracket ∧ b ≠ quote ∧ b ≠ lowerT ∧ b ≠ lowerF ∧ b ≠ lowerN := by
  revert b
  decide +kernel

theorem isDigit_ne {b : UInt8} (h : isDigit b) : b ≠ minus ∧ b ≠ plus := by
  constructor <;> rintro rfl <;> contradiction

theorem digitValue_le {b : UInt8} (h : isDigit b) : digitValue b ≤ 9 := by
  simp only [isDigit, Bool.and_eq_true, decide_eq_true_eq, UInt8.le_iff_toNat_le] at h
  have high : b.toNat ≤ 0x39 := h.2
  rw [digitValue]
  omega

theorem isHexDigit_ne {b : UInt8} (h : isHexDigit b) : b ≠ backslash ∧ b ≠ quote ∧ b ≠ nul := by
  revert b
  decide +kernel

theorem isHexDigit_ne_mark {b : UInt8} (h : isHexDigit b) : b ≠ lowerX ∧ b ≠ upperX := by
  constructor <;> rintro rfl <;> contradiction

def IsInner (b : UInt8) : Prop := b < 0x80 ∧ endsNumber b = false

instance (b : UInt8) : Decidable (IsInner b) := inferInstanceAs (Decidable (_ ∧ _))

/-- The bytes that literals are made of. -/
def isLiteral (b : UInt8) : Bool :=
  isHexDigit b || b == lowerX || b == upperX || startsNumber b

theorem isLiteral_of_isDigit {b : UInt8} (h : isDigit b) : isLiteral b := by
  simp [isLiteral, isHexDigit, h]

theorem isLiteral_of_isHexDigit {b : UInt8} (h : isHexDigit b) : isLiteral b := by
  simp [isLiteral, h]

theorem isInner_of_isLiteral {b : UInt8} (h : isLiteral b) : IsInner b := by
  revert b
  decide +kernel

section

variable {p : UInt8 → Bool} {run rest : List UInt8}

/-- A run ends where a byte of another class follows. -/
theorem takeWhile_run (all : ∀ b ∈ run, p b) (stop : ∀ b ∈ rest.head?, p b = false) :
    (run ++ rest).takeWhile p = run := by
  rw [List.takeWhile_append_of_pos all]
  cases rest with
  | nil => simp
  | cons b more => simp [stop b rfl]

theorem dropWhile_run (all : ∀ b ∈ run, p b) (stop : ∀ b ∈ rest.head?, p b = false) :
    (run ++ rest).dropWhile p = rest := by
  rw [List.dropWhile_append_of_pos all]
  cases rest with
  | nil => simp
  | cons b more => simp [stop b rfl]

theorem dropWhile_stop {bytes : List UInt8} : ∀ b ∈ (bytes.dropWhile p).head?, p b = false := by
  intro b hb
  have other := List.head?_dropWhile_not p bytes
  rwa [hb] at other

theorem exists_run (p : UInt8 → Bool) (bytes : List UInt8) : ∃ run rest,
    bytes = run ++ rest ∧ (∀ b ∈ run, p b) ∧ ∀ b ∈ rest.head?, p b = false :=
  ⟨bytes.takeWhile p, bytes.dropWhile p, List.takeWhile_append_dropWhile.symm,
    fun _ => List.mem_takeWhile_imp, dropWhile_stop⟩

end

end JsonTree.Byte
