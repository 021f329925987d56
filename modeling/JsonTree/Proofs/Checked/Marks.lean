import JsonTree.Proofs.Integers

/-!
The parts of a number literal as indices into it. One pass over the bytes marks them, and what decodes
the literal later indexes and cuts it where the marks say, without a look at what is there. Each such
step is checked here, and stops where what it relies on does not hold.
-/
namespace JsonTree.Checked

/-- What an unchecked step relies on, found missing. -/
inductive Breach where
  /-- A move past the end of the buffer. -/
  | position
  /-- A slice that is not inside the buffer. -/
  | slice
  /-- An index or a range that is not inside the literal. -/
  | index
  /-- The value of a digit, taken of another byte. -/
  | digit
  /-- A sum beyond the word that holds it. -/
  | overflow
  /-- A container closed where none is open. -/
  | depth
  /-- Bytes of a string that are not UTF-8. -/
  | text
  /-- An item that takes no byte. -/
  | stalled
  deriving DecidableEq, Repr

/-- Why a checked reading ends early: at a check, or with a failure that the text is refused for. -/
inductive Stop (ε : Type) where
  | breach (b : Breach)
  | refused (e : ε)
  deriving DecidableEq, Repr

section

variable {ε α : Type}

def breach (b : Breach) : Except (Stop ε) α := .error (.breach b)

def refuse (e : ε) : Except (Stop ε) α := .error (.refused e)

def byteAt (bytes : List UInt8) (i : Nat) : Except (Stop ε) UInt8 :=
  match bytes[i]? with
  | some b => .ok b
  | none => breach .index

def range (bytes : List UInt8) (start stop : Nat) : Except (Stop ε) (List UInt8) :=
  if start ≤ stop ∧ stop ≤ bytes.length then .ok ((bytes.take stop).drop start) else breach .index

def digit (b : UInt8) : Except (Stop ε) Nat :=
  if Byte.isDigit b then .ok (Byte.digitValue b) else breach .digit

def hexDigit (b : UInt8) : Except (Stop ε) Nat :=
  if Byte.isHexDigit b then .ok (Byte.hexValue b) else breach .digit

/-- A sum kept in a word of so many bits. -/
def inWord (bits n : Nat) : Except (Stop ε) Nat :=
  if n < 2 ^ bits then .ok n else breach .overflow

theorem byteAt_of_lt {bytes : List UInt8} {i : Nat} (h : i < bytes.length) :
    byteAt (ε := ε) bytes i = .ok bytes[i] := by
  rw [byteAt, List.getElem?_eq_getElem h]

theorem range_of_parts {bytes inside : List UInt8} (before after : List UInt8) {start stop : Nat}
    (parts : bytes = before ++ inside ++ after) (first : start = before.length)
    (last : stop = before.length + inside.length) : range (ε := ε) bytes start stop = .ok inside := by
  subst parts first last
  have cut : ((before ++ inside ++ after).take (before.length + inside.length)).drop
      before.length = inside := by
    rw [← List.length_append, List.take_left, List.drop_left]
  rw [range, cut, if_pos (by simp)]

theorem digit_of_isDigit {b : UInt8} (h : Byte.isDigit b) :
    digit (ε := ε) b = .ok (Byte.digitValue b) := if_pos h

theorem hexDigit_of_isHexDigit {b : UInt8} (h : Byte.isHexDigit b) :
    hexDigit (ε := ε) b = .ok (Byte.hexValue b) := if_pos h

theorem inWord_of_lt {bits n : Nat} (h : n < 2 ^ bits) : inWord (ε := ε) bits n = .ok n := if_pos h

end

/-! ### Where the parts of a literal are -/

/-- The parts of a literal by their distance from its start. -/
structure Marks where
  negative : Bool
  /-- The first byte after the sign. -/
  body : Nat
  hex : Bool := false
  point : Option Nat := none
  exponent : Option Nat := none
  wholeDigits : Nat := 0
  deriving DecidableEq, Repr

namespace Marks

/-- The marks so far, and how many digits were seen after the point and after the exponent's letter. -/
structure Scan where
  marks : Marks
  fractionDigits : Nat := 0
  powerDigits : Nat := 0

namespace Scan

/-- Digits count for the part that was opened last. -/
def digits (s : Scan) (n : Nat) : Scan :=
  if s.marks.exponent.isSome then { s with powerDigits := s.powerDigits + n }
  else if s.marks.point.isSome then { s with fractionDigits := s.fractionDigits + n }
  else { s with marks.wholeDigits := s.marks.wholeDigits + n }

def significand (s : Scan) : Nat := s.marks.wholeDigits + s.fractionDigits

/-- A sign stands nowhere but right after the exponent's letter. -/
def step (s : Scan) (index : Nat) (b : UInt8) : Except Fault Scan :=
  if Byte.isDigit b then .ok (s.digits 1)
  else if b = Byte.point then
    if s.marks.point.isSome || s.marks.exponent.isSome then .error ⟨.invalidNumber, index⟩
    else .ok { s with marks.point := some index }
  else if b = Byte.lowerE || b = Byte.upperE then
    if s.marks.exponent.isSome || s.significand = 0 then .error ⟨.invalidNumber, index⟩
    else .ok { s with marks.exponent := some index }
  else if b = Byte.plus || b = Byte.minus then
    if s.marks.exponent.map (· + 1) = some index then .ok s else .error ⟨.invalidNumber, index⟩
  else .error ⟨.invalidNumber, index⟩

def run (s : Scan) (index : Nat) : List UInt8 → Except Fault Scan
  | [] => .ok s
  | b :: rest =>
    match s.step index b with
    | .error f => .error f
    | .ok s => run s (index + 1) rest

end Scan

def scanHex (index : Nat) : List UInt8 → Except Fault Unit
  | [] => .ok ()
  | b :: rest =>
    if HexLiteral.isMisplaced b then .error ⟨.invalidNumber, index⟩
    else if !Byte.isHexDigit b then .error ⟨.invalidHex, index⟩
    else scanHex (index + 1) rest

def opensHex (lit : List UInt8) (body : Nat) : Bool :=
  lit[body]? == some Byte.zero &&
    (lit[body + 1]? == some Byte.lowerX || lit[body + 1]? == some Byte.upperX)

def ofHex (lit : List UInt8) (m : Marks) : Except (Stop Fault) Marks :=
  let first := m.body + 2
  if lit.length ≤ first then refuse ⟨.invalidHex, first⟩
  else match scanHex first (lit.drop first) with
    | .error f => refuse f
    | .ok () => .ok { m with hex := true }

def ofDecimal (lit : List UInt8) (m : Marks) : Except (Stop Fault) Marks :=
  match Scan.run { marks := m } m.body (lit.drop m.body) with
  | .error f => refuse f
  | .ok s =>
    if s.significand = 0 then refuse ⟨.invalidNumber, lit.length⟩
    else if s.marks.exponent.isSome && s.powerDigits = 0 then refuse ⟨.invalidNumber, lit.length⟩
    else if s.marks.wholeDigits > 1 then do
      let first ← byteAt lit s.marks.body
      if first = Byte.zero then refuse ⟨.invalidNumber, s.marks.body + 1⟩ else .ok s.marks
    else .ok s.marks

/-- What the first byte shows. -/
def start (b : UInt8) : Marks :=
  if b = Byte.minus then { negative := true, body := 1 }
  else if b = Byte.plus then { negative := false, body := 1 }
  else { negative := false, body := 0 }

/-- Marks a literal that is well formed. -/
def ofBytes (lit : List UInt8) : Except (Stop Fault) Marks :=
  match lit with
  | [] => refuse ⟨.invalidNumber, 0⟩
  | b :: _ =>
    let m := start b
    if opensHex lit m.body then ofHex lit m else ofDecimal lit m

/-- Where the parts of a literal come to stand in its text. -/
def ofLiteral : Literal → Marks
  | .hex h => { negative := h.sign = .minus, body := h.sign.text.length, hex := true }
  | .decimal d =>
    { negative := d.sign = .minus
      body := d.sign.text.length
      point := if d.point then some (d.sign.text.length + d.whole.length) else none
      exponent := d.exponent.map fun _ => d.significandText.length
      wholeDigits := d.whole.length }

end Marks

/-! ### The marks of a literal -/

namespace Marks

namespace Scan

variable {s : Scan} {index : Nat} {digits rest left : List UInt8}

theorem digits_zero (s : Scan) : s.digits 0 = s := by
  simp [digits]

theorem digits_add (s : Scan) (m n : Nat) : (s.digits m).digits n = s.digits (m + n) := by
  simp only [Scan.digits]
  split
  · simp_all [Nat.add_assoc]
  · split <;> simp_all [Nat.add_assoc]

theorem run_digits (all : ∀ b ∈ digits, Byte.isDigit b) (s : Scan) (index : Nat)
    (rest : List UInt8) :
    run s index (digits ++ rest) = run (s.digits digits.length) (index + digits.length) rest := by
  induction digits generalizing s index with
  | nil => rw [List.nil_append, List.length_nil, digits_zero, Nat.add_zero]
  | cons b more ih =>
    have first : s.step index b = .ok (s.digits 1) := if_pos (all b (by simp))
    rw [List.cons_append, run, first]
    simp only
    rw [ih (fun c hc => all c (by simp [hc])), digits_add, List.length_cons, Nat.add_comm 1,
      Nat.add_assoc, Nat.add_comm 1]

/-- What is left after the last part has to be nothing. -/
theorem run_stop (stop : ∀ b ∈ left.head?, s.step index b = .error ⟨.invalidNumber, index⟩) :
    run s index left = if left = [] then .ok s else .error ⟨.invalidNumber, index⟩ := by
  cases left with
  | nil => rfl
  | cons b rest =>
    rw [run, stop b rfl]
    rfl

/-- A byte that opens no part. -/
theorem step_misplaced {b : UInt8} (other : Byte.isDigit b = false)
    (pointed : b = Byte.point → s.marks.point.isSome ∨ s.marks.exponent.isSome)
    (letter : b = Byte.lowerE ∨ b = Byte.upperE → s.marks.exponent.isSome ∨ s.significand = 0)
    (sign : b = Byte.plus ∨ b = Byte.minus → s.marks.exponent.map (· + 1) ≠ some index) :
    s.step index b = .error ⟨.invalidNumber, index⟩ := by
  unfold step
  rw [if_neg (by simp [other])]
  split
  · rename_i point
    rw [if_pos (by simpa using pointed point)]
  · split
    · rename_i mark
      rw [if_pos (by simpa using letter (by simpa only [Bool.or_eq_true, decide_eq_true_eq] using mark))]
    · split
      · rename_i signs
        rw [if_neg (sign (by simpa only [Bool.or_eq_true, decide_eq_true_eq] using signs))]
      · rfl

/-- What is known once the parts of a literal were passed. -/
def ofParts (d : DecimalLiteral) : Scan :=
  { marks := ofLiteral (.decimal d)
    fractionDigits := d.fraction.length
    powerDigits := (d.exponent.map (·.digits.length)).getD 0 }

/-- The digits before the exponent, with the point if there is one. -/
theorem run_significand {d : DecimalLiteral} (whole : ∀ b ∈ d.whole, Byte.isDigit b)
    (fraction : ∀ b ∈ d.fraction, Byte.isDigit b) (unpointed : d.point = false → d.fraction = [])
    (rest : List UInt8) :
    run { marks := { negative := d.sign = .minus, body := d.sign.text.length } } d.sign.text.length
        (d.whole ++ ((if d.point then [Byte.point] else []) ++ (d.fraction ++ rest))) =
      run (ofParts { d with exponent := none }) d.significandText.length rest := by
  rw [run_digits whole]
  simp only [ofParts, ofLiteral, DecimalLiteral.significandText, List.length_append]
  cases point : d.point with
  | false => simp [unpointed point, Scan.digits]
  | true =>
    have other : Byte.isDigit Byte.point = false := by decide
    simp [run, Scan.digits, step, other, run_digits fraction]

theorem step_sign {b : UInt8} (signs : b = Byte.plus ∨ b = Byte.minus)
    (opened : s.marks.exponent.map (· + 1) = some index) : s.step index b = .ok s := by
  rcases signs with rfl | rfl <;> exact if_pos opened

theorem run_sign (opened : s.marks.exponent.map (· + 1) = some index) (sign : Sign)
    (rest : List UInt8) :
    run s index (sign.text ++ rest) = run s (index + sign.text.length) rest := by
  cases sign with
  | none => rfl
  | plus => simp only [Sign.text, List.singleton_append, run, step_sign (.inl rfl) opened]; rfl
  | minus => simp only [Sign.text, List.singleton_append, run, step_sign (.inr rfl) opened]; rfl

/-- What follows the letter of an exponent: a sign, digits and then nothing else. -/
theorem run_power {sign : Sign} (opened : s.marks.exponent.map (· + 1) = some index)
    (uncounted : s.powerDigits = 0) (split : Sign.split rest = (sign, left)) :
    run s index rest = if left.dropWhile Byte.isDigit = [] then
        .ok { s with powerDigits := (left.takeWhile Byte.isDigit).length }
      else .error ⟨.invalidNumber, index + rest.length - (left.dropWhile Byte.isDigit).length⟩ := by
  have parts := Sign.text_split rest
  rw [split] at parts
  have given : s.marks.exponent.isSome := by
    cases same : s.marks.exponent <;> simp_all
  obtain ⟨digits, others, rfl, all, stop⟩ := Byte.exists_run Byte.isDigit left
  rw [Byte.takeWhile_run all stop, Byte.dropWhile_run all stop, ← parts, run_sign opened,
    run_digits all]
  have counted : s.digits digits.length = { s with powerDigits := digits.length } := by
    simp [Scan.digits, given, uncounted]
  rw [counted, run_stop]
  · simp only [List.length_append]
    congr 3
    omega
  · intro b hb
    refine step_misplaced (stop b hb) (fun _ => .inr given) (fun _ => .inl given) fun signs => ?_
    -- A sign right after the letter is the exponent's own, so this one comes later.
    intro again
    have here : index + sign.text.length + digits.length = index :=
      (Option.some.inj (opened.symm.trans again)).symm
    obtain rfl : digits = [] := List.eq_nil_of_length_eq_zero (by omega)
    have unsigned : sign = .none := by
      cases sign with
      | none => rfl
      | plus | minus => simp [Sign.text] at here
    subst unsigned
    obtain ⟨minus, plus⟩ := Sign.head_of_split split b hb
    exact signs.elim plus minus

theorem run_exponent {power : Option Exponent} (unset : s.marks.exponent = none)
    (uncounted : s.powerDigits = 0) (some_digit : s.significand ≠ 0)
    (stop : ∀ b ∈ rest.head?, Byte.isDigit b = false ∧ (b = Byte.point → s.marks.point.isSome))
    (split : Exponent.split rest = (power, left)) :
    run s index rest = if left = [] then
        .ok { s with marks.exponent := power.map fun _ => index
                     powerDigits := (power.map (·.digits.length)).getD 0 }
      else .error ⟨.invalidNumber, index + rest.length - left.length⟩ := by
  cases rest with
  | nil =>
    cases split
    obtain ⟨⟨_, _, _, _, _, _⟩, _, _⟩ := s
    simp_all [run]
  | cons b more =>
    obtain ⟨other, pointed⟩ := stop b rfl
    by_cases mark : b = Byte.lowerE ∨ b = Byte.upperE
    · have whole : Exponent.split (b :: more) = (some ⟨b, (Sign.split more).1,
          (Sign.split more).2.takeWhile Byte.isDigit⟩, (Sign.split more).2.dropWhile Byte.isDigit) := by
        simp [Exponent.split, mark]
      cases whole.symm.trans split
      have opens : s.step index b = .ok { s with marks.exponent := some index } := by
        have free : ¬ (s.marks.exponent.isSome || s.significand = 0) = true := by
          rw [unset]
          simpa using some_digit
        rcases mark with rfl | rfl <;> exact if_neg free
      have later := run_power (s := { s with marks.exponent := some index }) rfl uncounted
        (Eq.refl (Sign.split more))
      rw [run, opens]
      simp only [later, List.length_cons, Nat.add_assoc, Nat.add_comm 1]
      rfl
    · have same : Exponent.split (b :: more) = (none, b :: more) := by
        simp [Exponent.split, not_or.1 mark]
      cases same.symm.trans split
      rw [run, step_misplaced other (fun point => .inl (pointed point)) (fun letter => absurd letter mark)
        (by simp [unset])]
      simp

theorem run_nothing (unset : s.marks.exponent = none) (none_given : s.significand = 0)
    (stop : ∀ b ∈ rest.head?, Byte.isDigit b = false ∧ (b = Byte.point → s.marks.point.isSome)) :
    run s index rest = if rest = [] then .ok s else .error ⟨.invalidNumber, index⟩ := by
  refine run_stop fun b hb => ?_
  obtain ⟨other, pointed⟩ := stop b hb
  exact step_misplaced other (fun point => .inl (pointed point)) (fun _ => .inr none_given)
    (by simp [unset])

end Scan

/-- What is asked once the parts were passed. -/
theorem ofDecimal_of_run {lit : List UInt8} {m : Marks} {d : DecimalLiteral}
    (scanned : Scan.run { marks := m } m.body (lit.drop m.body) = .ok (.ofParts d))
    (first : ∀ b ∈ d.whole.head?, lit[d.sign.text.length]? = some b) :
    ofDecimal lit m =
      if d.whole.isEmpty && d.fraction.isEmpty then refuse ⟨.invalidNumber, lit.length⟩
      else if d.exponent.any (·.digits.isEmpty) then refuse ⟨.invalidNumber, lit.length⟩
      else if d.whole.length > 1 && d.whole.head? == some Byte.zero then
        refuse ⟨.invalidNumber, d.sign.text.length + 1⟩
      else .ok (ofLiteral (.decimal d)) := by
  have power : ((Scan.ofParts d).marks.exponent.isSome && (Scan.ofParts d).powerDigits = 0) =
      d.exponent.any (·.digits.isEmpty) := by
    obtain ⟨_, _, _, _, exponent⟩ := d
    rcases exponent with _ | ⟨_, _, digits⟩
    · rfl
    · cases digits <;> rfl
  have digits : (Scan.significand (.ofParts d) = 0) = (d.whole.isEmpty && d.fraction.isEmpty) := by
    simp [Scan.significand, Scan.ofParts, ofLiteral]
  have several : ((Scan.ofParts d).marks.wholeDigits > 1) = (d.whole.length > 1) := rfl
  simp only [ofDecimal, scanned, digits, power, several]
  split
  · rfl
  · split
    · rfl
    · split
      · rename_i several
        obtain ⟨z, more, whole⟩ := List.exists_cons_of_length_pos (Nat.lt_of_succ_lt several)
        have opens := first z (by rw [whole]; rfl)
        have index : (Scan.ofParts d).marks.body = d.sign.text.length := rfl
        have found : byteAt (ε := Fault) lit d.sign.text.length = .ok z := by rw [byteAt, opens]
        rw [index, found, whole]
        have second : more ≠ [] := by
          rintro rfl
          simp [whole] at several
        by_cases zero : z = Byte.zero
        · simp [zero, second, bind, Except.bind]
        · simp [zero, bind, Except.bind]
          rfl
      · rename_i single
        rw [if_neg (by simp [single])]
        rfl

theorem ofDecimal_of_fault {lit : List UInt8} {m : Marks} {f : Fault}
    (failed : Scan.run { marks := m } m.body (lit.drop m.body) = .error f) :
    ofDecimal lit m = refuse f := by
  simp only [ofDecimal, failed]

section

variable {sign : Sign} {body afterFraction left : List UInt8} {d : DecimalLiteral}
variable (parts : DecimalLiteral.Parts sign body d afterFraction left)
include parts

theorem run_parts :
    Scan.run { marks := { negative := sign = .minus, body := sign.text.length } } sign.text.length
        ((sign.text ++ body).drop sign.text.length) =
      Scan.run (.ofParts { d with exponent := none }) d.significandText.length afterFraction := by
  rw [List.drop_left, parts.bytes, ← parts.signed]
  exact Scan.run_significand parts.wholeDigits parts.fractionDigits parts.unpointed afterFraction

theorem length_parts :
    (sign.text ++ body).length = d.significandText.length + afterFraction.length := by
  rw [parts.bytes, ← parts.signed]
  simp [DecimalLiteral.significandText]
  omega

theorem head_parts : ∀ b ∈ d.whole.head?, (sign.text ++ body)[d.sign.text.length]? = some b := by
  intro b hb
  obtain ⟨more, whole⟩ := List.head?_eq_some_iff.1 hb
  rw [parts.bytes, ← parts.signed, whole]
  simp

/-- Without a digit before the exponent all that is left is out of place. -/
theorem ofDecimal_noDigit (none_given : d.whole = [] ∧ d.fraction = []) :
    ofDecimal (sign.text ++ body) { negative := sign = .minus, body := sign.text.length } =
      refuse ⟨.invalidNumber, d.significandText.length⟩ := by
  have noDigit : (Scan.ofParts { d with exponent := none }).significand = 0 := by
    simp [Scan.ofParts, ofLiteral, Scan.significand, none_given]
  have scan := (run_parts parts).trans
    (Scan.run_nothing rfl noDigit (by simpa [Scan.ofParts, ofLiteral] using parts.stop))
  split at scan
  · rename_i ended
    have given : d.whole.isEmpty && d.fraction.isEmpty := by simp [none_given]
    have first := head_parts parts
    rw [ofDecimal_of_run scan first, if_pos given, length_parts parts, ended]
    rfl
  · exact ofDecimal_of_fault scan

/-- Behind the digits an exponent may follow, and nothing else. -/
theorem ofDecimal_digits (given : ¬ (d.whole.isEmpty && d.fraction.isEmpty)) :
    ofDecimal (sign.text ++ body) { negative := sign = .minus, body := sign.text.length } =
      if !left.isEmpty then refuse ⟨.invalidNumber, (sign.text ++ body).length - left.length⟩
      else if d.exponent.any (·.digits.isEmpty) then
        refuse ⟨.invalidNumber, (sign.text ++ body).length⟩
      else if d.whole.length > 1 && d.whole.head? == some Byte.zero then
        refuse ⟨.invalidNumber, sign.text.length + 1⟩
      else .ok (ofLiteral (.decimal d)) := by
  have some_digit : (Scan.ofParts { d with exponent := none }).significand ≠ 0 := by
    simpa [Scan.ofParts, ofLiteral, Scan.significand] using given
  have scan := (run_parts parts).trans (Scan.run_exponent rfl rfl some_digit
    (by simpa [Scan.ofParts, ofLiteral] using parts.stop) parts.exponent)
  split at scan
  · rename_i ended
    rw [ofDecimal_of_run (d := d) scan (head_parts parts), if_neg given, ended, parts.signed]
    rfl
  · rename_i some_left
    rw [ofDecimal_of_fault scan, length_parts parts, if_pos (by simpa using some_left)]

end

theorem ofDecimal_eq (sign : Sign) (body : List UInt8) :
    ofDecimal (sign.text ++ body) { negative := sign = .minus, body := sign.text.length } =
      ((DecimalLiteral.read (sign.text ++ body).length sign body).map
        fun d => ofLiteral (.decimal d)).mapError .refused := by
  obtain ⟨d, afterFraction, left, parts, read⟩ := DecimalLiteral.exists_parts sign body
  have base : (sign.text ++ body).length - body.length = sign.text.length := by
    rw [List.length_append, Nat.add_sub_cancel]
  rw [read, base]
  by_cases given : d.whole.isEmpty && d.fraction.isEmpty
  · rw [if_pos given, length_parts parts, Nat.add_sub_cancel]
    exact ofDecimal_noDigit parts (by simpa using given)
  · rw [if_neg given, ofDecimal_digits parts given]
    split
    · rfl
    · split
      · rfl
      · split <;> rfl

theorem scanHex_eq {digits : List UInt8} (index : Nat) : scanHex index digits =
    match digits.dropWhile Byte.isHexDigit with
    | [] => .ok ()
    | b :: left => .error ⟨if HexLiteral.isMisplaced b then .invalidNumber else .invalidHex,
        index + digits.length - (b :: left).length⟩ := by
  induction digits generalizing index with
  | nil => rfl
  | cons b rest ih =>
    by_cases hex : Byte.isHexDigit b
    · have placed : HexLiteral.isMisplaced b = false := HexLiteral.isMisplaced_of_isHexDigit hex
      rw [scanHex, List.dropWhile_cons_of_pos hex, ih]
      simp [placed, hex, Nat.add_assoc, Nat.add_comm 1]
    · rw [scanHex, List.dropWhile_cons_of_neg hex]
      by_cases misplaced : HexLiteral.isMisplaced b <;> simp [misplaced, hex]

theorem ofHex_eq (sign : Sign) (mark : UInt8) (digits : List UInt8) :
    ofHex (sign.text ++ Byte.zero :: mark :: digits)
        { negative := sign = .minus, body := sign.text.length } =
      ((HexLiteral.read (sign.text ++ Byte.zero :: mark :: digits).length sign mark digits).map
        fun h => ofLiteral (.hex h)).mapError .refused := by
  have cut : (sign.text ++ Byte.zero :: mark :: digits).drop (sign.text.length + 2) = digits := by
    rw [← List.drop_drop, List.drop_left]
    rfl
  have length : (sign.text ++ Byte.zero :: mark :: digits).length =
      sign.text.length + 2 + digits.length := by
    simp
    omega
  simp only [ofHex, cut, length, scanHex_eq, HexLiteral.read]
  cases digits with
  | nil => simp [refuse, Except.map, Except.mapError]
  | cons b rest =>
    rw [if_neg (by simp)]
    cases (b :: rest).dropWhile Byte.isHexDigit <;>
      simp [refuse, Except.map, Except.mapError, ofLiteral]

theorem opensHex_eq (sign : Sign) (body : List UInt8) :
    opensHex (sign.text ++ body) sign.text.length = (HexLiteral.split? body).isSome := by
  have first : (sign.text ++ body)[sign.text.length]? = body[0]? := by
    rw [List.getElem?_append_right (Nat.le_refl _), Nat.sub_self]
  have second : (sign.text ++ body)[sign.text.length + 1]? = body[1]? := by
    rw [List.getElem?_append_right (Nat.le_add_right _ _), Nat.add_sub_cancel_left]
  rw [opensHex, first, second]
  match body with
  | [] => rfl
  | [b] => simp [HexLiteral.split?]
  | z :: mark :: digits =>
    rw [Bool.eq_iff_iff]
    simp [HexLiteral.split?]

theorem start_eq {b : UInt8} {rest body : List UInt8} {sign : Sign}
    (h : Sign.split (b :: rest) = (sign, body)) :
    start b = { negative := sign = .minus, body := sign.text.length } := by
  simp only [Sign.split] at h
  unfold start
  split
  · rename_i minus
    rw [if_pos minus] at h
    cases h
    rfl
  · rename_i positive
    rw [if_neg positive] at h
    split
    · rename_i plus
      rw [if_pos plus] at h
      cases h
      rfl
    · rename_i unsigned
      rw [if_neg unsigned] at h
      cases h
      rfl

/-- The marks are those of the literal that is read, and a text that is none is refused alike. -/
theorem ofBytes_eq (lit : List UInt8) :
    ofBytes lit = ((Literal.read lit).map ofLiteral).mapError .refused := by
  obtain ⟨sign, body, split⟩ : ∃ sign body, Sign.split lit = (sign, body) := ⟨_, _, rfl⟩
  have parts := Sign.text_split lit
  simp only [split] at parts
  cases lit with
  | nil => rfl
  | cons b rest =>
    simp only [ofBytes, Literal.read, split, start_eq split]
    rw [← parts, opensHex_eq]
    cases found : HexLiteral.split? body with
    | none =>
      simp only [Option.isSome_none, Bool.false_eq_true, if_false]
      rw [ofDecimal_eq]
      cases DecimalLiteral.read (sign.text ++ body).length sign body <;> rfl
    | some p =>
      obtain ⟨rfl, _⟩ := HexLiteral.split?_eq_some_iff.1 found
      simp only [Option.isSome_some, if_true]
      rw [ofHex_eq]
      cases HexLiteral.read _ sign p.1 p.2 <;> rfl

end Marks

end JsonTree.Checked
