import JsonTree.Proofs.Layout
import JsonTree.Proofs.Quoting
import JsonTree.Proofs.StrictGrammar

/-!
What is written is strict JSON, whatever the tree, as long as no number was kept as text. Floats are
written in three ways, and each of them gives a number with a point.
-/
namespace JsonTree

namespace Strict

theorem digits_toDigits (n : Nat) : Digits (Nat.toDigits 10 n) :=
  ⟨Nat.toDigits_ne_nil, fun _ hc => Nat.isDigit_of_mem_toDigits (by decide) (by decide) hc⟩

theorem whole_digit {n : Nat} (h : n < 10) : Whole [n.digitChar] := by
  have digit : n.digitChar.isDigit := by simpa [Nat.isDigit_digitChar] using h
  by_cases zero : n = 0
  · rw [zero]
    exact .zero
  · exact .lead digit (by simpa using zero) nofun

theorem Whole.append {t u : List Char} (h : Whole t) (other : t ≠ ['0'])
    (digits : ∀ c ∈ u, c.isDigit) : Whole (t ++ u) := by
  cases h with
  | zero => contradiction
  | lead first nonzero others =>
    exact .lead first nonzero (List.forall_mem_append.2 ⟨others, digits⟩)

theorem Whole.first {c : Char} {t : List Char} (h : Whole (c :: t)) : Whole [c] := by
  cases h with
  | zero => exact .zero
  | lead first nonzero => exact .lead first nonzero nofun

/-- Only zero begins with a zero. -/
theorem whole_toDigits (n : Nat) : Whole (Nat.toDigits 10 n) := by
  induction n using Nat.strongRecOn with
  | ind n ih =>
    by_cases small : n < 10
    · rw [Nat.toDigits_of_lt_base small]
      exact whole_digit small
    · have last : (n % 10).digitChar.isDigit := by
        simpa [Nat.isDigit_digitChar] using Nat.mod_lt n (by decide)
      have other : Nat.toDigits 10 (n / 10) ≠ ['0'] := by
        intro zero
        have value := Nat.ofDigitChars_toDigits (b := 10) (n := n / 10) (by decide) (by decide)
        rw [zero] at value
        have none_left : n / 10 = 0 := value.symm
        omega
      rw [Nat.toDigits_of_base_le (by decide) (Nat.le_of_not_lt small)]
      exact (ih (n / 10) (by omega)).append other (by simpa using last)

/-- A number with a point. -/
inductive Pointed : List Char → Prop where
  | mk {s w f e : List Char} : Minus s → Whole w → Digits f → Exponent e →
      Pointed (s ++ w ++ '.' :: f ++ e)

theorem Pointed.number {t : List Char} (h : Pointed t) : Number t := by
  obtain ⟨sign, whole, fraction, exponent⟩ := h
  exact .mk sign whole (.digits fraction) exponent

theorem Pointed.point {t : List Char} (h : Pointed t) : '.' ∈ t := by
  obtain ⟨_, _, _, _⟩ := h
  simp

theorem number_text (n : Int) : Number (Integer.text n) := by
  unfold Integer.text
  split
  · simpa using Number.mk .present (whole_toDigits n.natAbs) .absent .absent
  · simpa using Number.mk .absent (whole_toDigits n.natAbs) .absent .absent

theorem integral_text (n : Int) : Integral (Integer.text n) n := by
  have value := Nat.ofDigitChars_toDigits (b := 10) (n := n.natAbs) (by decide) (by decide)
  unfold Integer.text
  split
  · have same := Integral.negative (digits_toDigits n.natAbs)
    rw [value] at same
    rwa [show -(n.natAbs : Int) = n by omega] at same
  · have same := Integral.natural (digits_toDigits n.natAbs)
    rw [value] at same
    rwa [show (n.natAbs : Int) = n by omega] at same

theorem exponent_text (n : Int) : Exponent ('e' :: Integer.text n) := by
  unfold Integer.text
  split
  · exact .digits (.inl rfl) (.inr (.inr rfl)) (digits_toDigits n.natAbs)
  · exact .digits (.inl rfl) (.inl rfl) (digits_toDigits n.natAbs)

end Strict

namespace FloatText

open Strict

theorem minus_signText (x : Float) : Minus (signText x) := by
  unfold signText
  split
  · exact .present
  · exact .absent

theorem digits_padded (width n : Nat) : Digits (padded width n) := by
  have digits := digits_toDigits n
  constructor
  · simp [padded, digits.some_digit]
  · refine List.forall_mem_append.2 ⟨fun c hc => ?_, digits.all⟩
    rw [List.eq_of_mem_replicate hc]
    rfl

theorem digits_afterPoint {t : List Char} (h : ∀ c ∈ t, c.isDigit) : Digits (afterPoint t) := by
  unfold afterPoint
  split
  · exact ⟨by simp, List.forall_mem_singleton.2 rfl⟩
  · rename_i some_digit
    exact ⟨by simpa using some_digit, h⟩

variable {s : List Char} (sign : Minus s)
include sign

theorem pointed_positional (d : Decimal) : Pointed (s ++ positional d) := by
  have fraction : ∀ places n, ∀ c ∈ (if places = 0 then [] else padded places n), c.isDigit := by
    intro places n
    split
    · exact nofun
    · exact (digits_padded places n).all
  rw [← List.append_nil (s ++ positional d), positional, ← List.append_assoc]
  exact .mk sign (whole_toDigits _) (digits_afterPoint (fraction _ _)) .absent

theorem pointed_scientific (d : Decimal) : Pointed (s ++ scientific d) := by
  have whole := whole_toDigits d.digits
  have digits := (digits_toDigits d.digits).all
  unfold scientific
  generalize Nat.toDigits 10 d.digits = t at whole digits
  cases t with
  | nil => nomatch whole
  | cons c rest =>
    have fraction := digits_afterPoint (List.forall_mem_cons.1 digits).2
    rw [← List.append_assoc, ← List.append_assoc]
    exact .mk sign whole.first fraction (exponent_text _)

omit sign

theorem pointed_shortest (x : Float) : Pointed (shortest x) := by
  unfold shortest
  split
  · exact pointed_scientific (minus_signText x) _
  · exact pointed_positional (minus_signText x) _

theorem pointed_candidateText (x : Float) (exponent : Int) (n : Nat) :
    Pointed (candidateText x exponent n) :=
  .mk (minus_signText x) (whole_toDigits _) (digits_padded 16 _) (exponent_text exponent)

/-- The search gives the text of a candidate that reads as a float, or the best text before them. -/
theorem search_mem {x : Float} {exponent : Int} {best : Option (Float × List Char)}
    {ns : List Nat} {t : List Char} (found : search x exponent best ns = some t) :
    (∃ p ∈ best, t = p.2) ∨
      ∃ n ∈ ns, (readBack (candidateText x exponent n)).isSome ∧ t = candidateText x exponent n := by
  fun_induction search x exponent best ns with
  | case1 best =>
    obtain ⟨p, hp, rfl⟩ := Option.map_eq_some_iff.1 found
    exact .inl ⟨p, hp, rfl⟩
  | case2 best n rest _ _ ih =>
    obtain before | ⟨m, hm, same⟩ := ih found
    · exact .inl before
    · exact .inr ⟨m, List.mem_cons_of_mem n hm, same⟩
  | case3 best n rest _ y back =>
    exact .inr ⟨n, List.mem_cons_self, Option.isSome_of_eq_some back, (Option.some.inj found).symm⟩
  | case4 best n rest text y back _ distance closer ih =>
    obtain ⟨p, hp, rfl⟩ | ⟨m, hm, same⟩ := ih found
    · split at hp
      · cases hp
        exact .inr ⟨n, List.mem_cons_self, Option.isSome_of_eq_some back, rfl⟩
      · exact .inl ⟨p, hp, rfl⟩
    · exact .inr ⟨m, List.mem_cons_of_mem n hm, same⟩

theorem pointed_text {x : Float} (finite : x.isFinite) : Pointed (text x) := by
  unfold text
  rw [finite]
  simp only [Bool.not_true, Bool.false_eq_true, if_false]
  split
  · exact pointed_shortest x
  · cases found : nearby x with
    | none => exact pointed_shortest x
    | some t =>
      obtain ⟨_, none_before, _⟩ | ⟨n, _, _, rfl⟩ := search_mem found
      · contradiction
      · exact pointed_candidateText x _ n

theorem text_of_not_finite {x : Float} (h : ¬ x.isFinite) : text x = ['n', 'u', 'l', 'l'] := by
  simp [text, h]

end FloatText

namespace Strict

theorem charText_encodeChar (c : Char) : CharText (Quoted.encodeChar c) c := by
  have known : ∀ p ∈ Quoted.letters, p ∈ escapes := by decide
  have units : ∀ n : Fin 0x20,
      unit? ['0', '0', (n.val / 16).digitChar, (n.val % 16).digitChar] = some n.val := by decide
  have spelled := Quoted.spelled_encodeChar c
  generalize Quoted.encodeChar c = t at spelled
  cases spelled with
  | plain unquoted other high => exact .plain unquoted other high
  | letter listed => exact .letter (known _ listed)
  | control low => exact .unit (units ⟨c.toNat, low⟩)

theorem body_encode (cs : List Char) : Body (cs.flatMap Quoted.encodeChar) cs := by
  induction cs with
  | nil => exact .nil
  | cons c rest ih => exact .cons (charText_encodeChar c) ih

theorem stringText_encode (s : String) : StringText (Quoted.encode s.toList) s :=
  .quoted (body_encode s.toList)

theorem memberText_text {R : List Char → Value → Prop} {depth : Nat} {m : String × Value}
    (text : R (m.2.text depth) m.2) : MemberText R (Value.memberText depth m) m := by
  have space : Space [' '] := List.forall_mem_singleton.2 (.inl rfl)
  have member := MemberText.mk (stringText_encode m.1) space_nil space text
  rwa [List.append_nil, List.append_assoc] at member

theorem valueText_text {v : Value} (decoded : ∀ n ∈ v.nodes, n.literal? = none) (depth : Nat) :
    ValueText (v.text depth) v := by
  induction v using Value.induct generalizing depth with
  | string s => exact .string (stringText_encode s)
  | int n => exact .int (number_text n.toInt) (integral_text n.toInt)
  | float x =>
    by_cases finite : x.isFinite
    · have pointed := FloatText.pointed_text finite
      exact .float finite pointed.number pointed.point
    · have word := ValueText.notFinite finite
      rwa [← FloatText.text_of_not_finite finite] at word
  | literal text => exact nomatch decoded _ List.mem_cons_self
  | bool b =>
    cases b with
    | true => exact .true
    | false => exact .false
  | null => exact .null
  | array items ih =>
    have inner := (Value.forall_nodes_array.1 decoded).2
    rw [Value.text_array]
    exact .array (Value.bracketed_text _ _ depth fun v hv => ih v hv (inner v hv) (depth + 1))
  | object members ih =>
    have inner := (Value.forall_nodes_object.1 decoded).2
    rw [Value.text_object]
    exact .object (Value.bracketed_text _ _ depth fun m hm =>
      memberText_text (ih m hm (inner m hm) (depth + 1)))

end Strict

/-- Every tree in which no number is kept as text is written as strict JSON. Each float that is
finite is written as a number with a point, and each other one as null. -/
theorem strict_toJson {v : Value} (decoded : v.literals = []) :
    Strict.DocumentText v.toJson.toList v := by
  have none_kept : ∀ n ∈ v.nodes, n.literal? = none := List.filterMap_eq_nil_iff.1 decoded
  rw [Value.toList_toJson]
  exact .of (Strict.valueText_text none_kept 0)

/-- Floats that are not finite, and strings with control characters. -/
theorem strict_toJson_notFinite :
    Strict.DocumentText (Value.object [("\x00", .array [.float (0.0 / 0.0), .float 1.0e300]),
        ("\n\x1f", .float (1.0 / 0.0))]).toJson.toList
      (.object [("\x00", .array [.float (0.0 / 0.0), .float 1.0e300]),
        ("\n\x1f", .float (1.0 / 0.0))]) :=
  strict_toJson rfl

end JsonTree
