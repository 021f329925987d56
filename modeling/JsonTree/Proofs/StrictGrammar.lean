import JsonTree.Value

/-!
The grammar of JSON as the standard has it, over characters. It is stricter than what is read here:
control characters do not stand in strings or between tokens, numbers have no plus sign and no bare
point, and there are no hex literals. Each text is related to the tree it stands for, but a float is
only required to be a number with a point.
-/
namespace JsonTree.Strict

def Space (t : List Char) : Prop := ∀ c ∈ t, c = ' ' ∨ c = '\t' ∨ c = '\n' ∨ c = '\r'

structure Digits (t : List Char) : Prop where
  some_digit : t ≠ []
  all : ∀ c ∈ t, c.isDigit

/-- Digits with a zero first only where it stands alone. -/
inductive Whole : List Char → Prop where
  | zero : Whole ['0']
  | lead {c : Char} {t : List Char} : c.isDigit → c ≠ '0' → (∀ d ∈ t, d.isDigit) → Whole (c :: t)

inductive Minus : List Char → Prop where
  | absent : Minus []
  | present : Minus ['-']

inductive Fraction : List Char → Prop where
  | absent : Fraction []
  | digits {t : List Char} : Digits t → Fraction ('.' :: t)

inductive Exponent : List Char → Prop where
  | absent : Exponent []
  | digits {letter : Char} {sign t : List Char} : letter = 'e' ∨ letter = 'E' →
      sign = [] ∨ sign = ['+'] ∨ sign = ['-'] → Digits t → Exponent (letter :: sign ++ t)

inductive Number : List Char → Prop where
  | mk {s w f e : List Char} : Minus s → Whole w → Fraction f → Exponent e → Number (s ++ w ++ f ++ e)

/-- Digits, or digits after a minus, and their value. -/
inductive Integral : List Char → Int → Prop where
  | natural {t : List Char} : Digits t → Integral t (Nat.ofDigitChars 10 t 0)
  | negative {t : List Char} : Digits t → Integral ('-' :: t) (-Nat.ofDigitChars 10 t 0)

def hexValue? (c : Char) : Option Nat :=
  if c.isDigit then some (c.toNat - '0'.toNat)
  else if 'a' ≤ c ∧ c ≤ 'f' then some (c.toNat - 'a'.toNat + 10)
  else if 'A' ≤ c ∧ c ≤ 'F' then some (c.toNat - 'A'.toNat + 10)
  else none

/-- The number that four hex digits stand for. -/
def unit? : List Char → Option Nat
  | [a, b, c, d] =>
    match hexValue? a, hexValue? b, hexValue? c, hexValue? d with
    | some a, some b, some c, some d => some (((a * 16 + b) * 16 + c) * 16 + d)
    | _, _, _, _ => none
  | _ => none

/-- The letters of the short escapes, each with the character it stands for. -/
def escapes : List (Char × Char) :=
  [('"', '"'), ('\\', '\\'), ('/', '/'), ('b', '\x08'), ('f', '\x0C'), ('n', '\n'), ('r', '\r'),
    ('t', '\t')]

/-- A character in a string: as it is, by a letter, or by one or two sixteen-bit units. -/
inductive CharText : List Char → Char → Prop where
  | plain {c : Char} : c ≠ '"' → c ≠ '\\' → 0x20 ≤ c.toNat → CharText [c] c
  | letter {l c : Char} : (l, c) ∈ escapes → CharText ['\\', l] c
  | unit {t : List Char} {c : Char} : unit? t = some c.toNat → CharText ('\\' :: 'u' :: t) c
  | pair {t u : List Char} {high low : Nat} {c : Char} : unit? t = some high → unit? u = some low →
      0xD800 ≤ high → high < 0xDC00 → 0xDC00 ≤ low → low < 0xE000 →
      c.toNat = 0x10000 + (high - 0xD800) * 0x400 + (low - 0xDC00) →
      CharText ('\\' :: 'u' :: t ++ '\\' :: 'u' :: u) c

inductive Body : List Char → List Char → Prop where
  | nil : Body [] []
  | cons {t u cs : List Char} {c : Char} : CharText t c → Body u cs → Body (t ++ u) (c :: cs)

inductive StringText : List Char → String → Prop where
  | quoted {t : List Char} {s : String} : Body t s.toList → StringText ('"' :: t ++ ['"']) s

section

variable {α : Type} (R : List Char → α → Prop)

inductive Padded : List Char → α → Prop where
  | mk {w t w' : List Char} {a : α} : Space w → R t a → Space w' → Padded (w ++ t ++ w') a

inductive Separated : List Char → List α → Prop where
  | last {t : List Char} {a : α} : R t a → Separated t [a]
  | more {t u : List Char} {a : α} {as : List α} : R t a → Separated u as →
      Separated (t ++ ',' :: u) (a :: as)

end

/-- Brackets around items, which commas separate. -/
inductive Bracketed {α : Type} (R : List Char → α → Prop) (first last : Char) :
    List Char → List α → Prop where
  | empty {w : List Char} : Space w → Bracketed R first last (first :: w ++ [last]) []
  | items {t : List Char} {as : List α} : Separated (Padded R) t as →
      Bracketed R first last (first :: t ++ [last]) as

inductive MemberText (R : List Char → Value → Prop) : List Char → String × Value → Prop where
  | mk {k w w' t : List Char} {key : String} {v : Value} : StringText k key → Space w → Space w' →
      R t v → MemberText R (k ++ w ++ ':' :: w' ++ t) (key, v)

/-- A float that is not finite has no number, and null stands for it. -/
inductive ValueText : List Char → Value → Prop where
  | string {t : List Char} {s : String} : StringText t s → ValueText t (.string s)
  | int {t : List Char} {n : Int64} : Number t → Integral t n.toInt → ValueText t (.int n)
  | float {t : List Char} {x : Float} : x.isFinite → Number t → '.' ∈ t → ValueText t (.float x)
  | notFinite {x : Float} : ¬ x.isFinite → ValueText ['n', 'u', 'l', 'l'] (.float x)
  | array {t : List Char} {items : List Value} : Bracketed ValueText '[' ']' t items →
      ValueText t (.array items)
  | object {t : List Char} {members : List (String × Value)} :
      Bracketed (MemberText ValueText) '\x7b' '\x7d' t members → ValueText t (.object members)
  | true : ValueText ['t', 'r', 'u', 'e'] (.bool true)
  | false : ValueText ['f', 'a', 'l', 's', 'e'] (.bool false)
  | null : ValueText ['n', 'u', 'l', 'l'] .null

/-- One value of any kind, with whitespace around it. -/
def DocumentText : List Char → Value → Prop := Padded ValueText

variable {α : Type} {R : List Char → α → Prop} {as : List α}

theorem space_nil : Space [] := nofun

theorem Padded.of {t : List Char} {a : α} (h : R t a) : Padded R t a := by
  have padded := Padded.mk space_nil h space_nil
  rwa [List.append_nil] at padded

theorem Padded.before {t w : List Char} {a : α} (h : Padded R t a) (space : Space w) :
    Padded R (t ++ w) a := by
  obtain ⟨before, inner, after⟩ := h
  rw [List.append_assoc]
  exact .mk before inner (List.forall_mem_append.2 ⟨after, space⟩)

theorem Separated.before {t w : List Char} (h : Separated (Padded R) t as) (space : Space w) :
    Separated (Padded R) (t ++ w) as := by
  induction h with
  | last item => exact .last (item.before space)
  | more item _ ih =>
    rw [List.append_assoc]
    exact .more item ih

end JsonTree.Strict
