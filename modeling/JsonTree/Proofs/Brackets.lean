import JsonTree.Proofs.Parsing

/-!
The containers open after a text, found without reading it: outside of strings each bracket opens or
closes one. The text of a value closes what it opens.
-/
namespace JsonTree

open Grammar

namespace Document

/-- How many containers are open after a text, where `depth` of them are open before it. A string is
passed over as a whole. -/
def depthAfter (depth : Nat) (bytes : List UInt8) : Nat :=
  match bytes with
  | [] => depth
  | b :: rest =>
    if b = Byte.quote then
      match Quoted.bodyLength 0 false rest with
      | .error _ => depth
      | .ok n => depthAfter depth (rest.drop (n + 1))
    else if b = Byte.openBrace ∨ b = Byte.openBracket then depthAfter (depth + 1) rest
    else if b = Byte.closeBrace ∨ b = Byte.closeBracket then depthAfter (depth - 1) rest
    else depthAfter depth rest
termination_by bytes.length
decreasing_by all_goals simp only [List.length_drop, List.length_cons]; omega

/-- The text opens `n` containers that it does not close. -/
def Opens (n : Nat) (t : List UInt8) : Prop :=
  ∀ depth u, depthAfter depth (t ++ u) = depthAfter (depth + n) u

variable {t u w : List UInt8} {m n : Nat} {b : UInt8}

theorem Opens.depthAfter (h : Opens n t) (depth : Nat) : depthAfter depth t = depth + n := by
  have alone := h depth []
  rwa [List.append_nil, Document.depthAfter] at alone

theorem opens_nil : Opens 0 [] := fun _ _ => rfl

theorem Opens.append (h : Opens m t) (g : Opens n u) : Opens (m + n) (t ++ u) := by
  intro depth v
  rw [List.append_assoc, h, g, Nat.add_assoc]

/-- What closes all that it opens can stand before anything. -/
theorem Opens.after (h : Opens 0 w) (g : Opens n t) : Opens n (w ++ t) := by
  have both := h.append g
  rwa [Nat.zero_add] at both

theorem opens_bracket (h : b = Byte.openBrace ∨ b = Byte.openBracket) : Opens 1 [b] := by
  intro depth u
  have unquoted : b ≠ Byte.quote := by rcases h with rfl | rfl <;> decide
  rw [List.singleton_append, Document.depthAfter, if_neg unquoted, if_pos h]

/-- Brackets of either kind and quotes are what the depth of a text depends on. -/
def IsPlain (b : UInt8) : Prop :=
  b ≠ Byte.quote ∧ ¬ (b = Byte.openBrace ∨ b = Byte.openBracket) ∧
    ¬ (b = Byte.closeBrace ∨ b = Byte.closeBracket)

instance (b : UInt8) : Decidable (IsPlain b) := inferInstanceAs (Decidable (_ ∧ _))

theorem opens_plain (h : IsPlain b) : Opens 0 [b] := by
  intro depth u
  obtain ⟨unquoted, opening, closing⟩ := h
  rw [List.singleton_append, Document.depthAfter, if_neg unquoted, if_neg opening, if_neg closing]
  rfl

theorem opens_of_all (h : ∀ b ∈ w, IsPlain b) : Opens 0 w := by
  induction w with
  | nil => exact opens_nil
  | cons b rest ih =>
    rw [List.forall_mem_cons] at h
    exact (opens_plain h.1).append (ih h.2)

theorem opens_space (h : Space w) : Opens 0 w := by
  have each : ∀ b, Byte.isWhitespace b → IsPlain b := by decide +kernel
  exact opens_of_all fun b hb => each b (h b hb)

theorem opens_string {s : String} (h : StringText t s) : Opens 0 t := by
  obtain ⟨inner, _⟩ := h
  rename_i body
  intro depth u
  have length := Quoted.bodyLength_of_body inner 0 u
  rw [List.append_assoc, List.singleton_append, List.cons_append, Document.depthAfter, if_pos rfl, length]
  simp

theorem opens_keyword {v : Value} (h : KeywordText t v) : Opens 0 t := by
  cases h <;> exact opens_of_all (by decide +kernel)

theorem opens_number {asText : Bool} {v : Value} (h : NumberText asText t v) : Opens 0 t := by
  obtain ⟨l, formed, rfl, _⟩ := Number.decode_eq_ok_iff.1 h.decoded
  have each : ∀ b, Byte.isLiteral b → IsPlain b := by decide +kernel
  exact opens_of_all fun b hb => each b (formed.isLiteral b hb)

section

variable {α : Type} {R : List UInt8 → α → Prop} {a : α} {as : List α}

theorem opens_padded (imp : ∀ t a, R t a → Opens 0 t) (h : Padded R t a) : Opens 0 t := by
  obtain ⟨before, inner, after⟩ := h
  exact ((opens_space before).append (imp _ _ inner)).append (opens_space after)

theorem opens_separated (imp : ∀ t a, R t a → Opens 0 t) (h : Separated (Padded R) t as) :
    Opens 0 t := by
  have comma : Opens 0 [Byte.comma] := opens_plain (by decide)
  induction h with
  | last item => exact opens_padded imp item
  | more item _ ih => exact (opens_padded imp item).append (comma.append ih)

theorem opens_bracketed {first last : UInt8} (opening : first = Byte.openBrace ∨ first = Byte.openBracket)
    (closing : last = Byte.closeBrace ∨ last = Byte.closeBracket)
    (imp : ∀ t a, R t a → Opens 0 t) (h : Bracketed R first last t as) : Opens 0 t := by
  have between : ∀ {w}, Opens 0 w → Opens 0 (first :: w ++ [last]) := by
    intro w inside depth u
    have unquoted : last ≠ Byte.quote := by rcases closing with rfl | rfl <;> decide
    have other : ¬ (last = Byte.openBrace ∨ last = Byte.openBracket) := by
      rcases closing with rfl | rfl <;> decide
    have opened := (opens_bracket opening).append inside depth (last :: u)
    rw [Document.depthAfter, if_neg unquoted, if_neg other, if_pos closing] at opened
    simpa using opened
  cases h with
  | empty space => exact between (opens_space space)
  | items inside => exact between (opens_separated imp inside)

theorem opens_member {R : List UInt8 → Value → Prop} {m : String × Value}
    (imp : ∀ t v, R t v → Opens 0 t) (h : MemberText R t m) : Opens 0 t := by
  obtain ⟨key, before, after, inner⟩ := h
  have colon : Opens 0 [Byte.colon] := opens_plain (by decide)
  have named := ((opens_string key).append (opens_space before)).append colon
  simpa using (named.append (opens_space after)).append (imp _ _ inner)

end

theorem opens_value {asText : Bool} {v : Value} (h : ValueText asText t v) : Opens 0 t := by
  refine ValueText.induct (P := fun t _ => Opens 0 t) ?array ?object ?string ?keyword ?number h
  case array =>
    exact fun t items inside =>
      opens_bracketed (.inr rfl) (.inr rfl) (fun _ _ => And.right) inside
  case object =>
    exact fun t members inside =>
      opens_bracketed (.inl rfl) (.inl rfl) (fun _ _ => opens_member fun _ _ => And.right) inside
  case string => exact fun t s => opens_string
  case keyword => exact fun t v => opens_keyword
  case number => exact fun t v => opens_number

end Document

end JsonTree
