import JsonTree.Proofs.Parsing

/-!
The number literals of a document, found without reading it. Outside of strings a literal runs from
a byte that numbers open with up to the next delimiter.
-/
namespace JsonTree

open Grammar

namespace Document

/-- The literals of a text with the offsets they start at. A string is passed over as a whole. -/
def literals (offset : Nat) (bytes : List UInt8) : List (Nat × List UInt8) :=
  match bytes with
  | [] => []
  | b :: rest =>
    if b = Byte.quote then
      match Quoted.bodyLength 0 false rest with
      | .error _ => []
      | .ok n => literals (offset + n + 2) (rest.drop (n + 1))
    else if Byte.startsNumber b then
      let digits := rest.takeWhile (!Byte.endsNumber ·)
      (offset, b :: digits) :: literals (offset + digits.length + 1) (rest.drop digits.length)
    else literals (offset + 1) rest
termination_by bytes.length
decreasing_by all_goals simp only [List.length_drop, List.length_cons]; omega

/-- Nothing follows, or a byte that ends a number. -/
def Ends (u : List UInt8) : Prop := ∀ b ∈ u.head?, Byte.endsNumber b

/-- The text has no literals and does not change those of what follows. -/
def Silent (w : List UInt8) : Prop :=
  ∀ offset u, literals offset (w ++ u) = literals (offset + w.length) u

/-- The literals of the text, whatever ends it. -/
structure Scans (t : List UInt8) (texts : List (List UInt8)) : Prop where
  texts : ∀ offset, (literals offset t).map (·.2) = texts
  append : ∀ offset u, Ends u →
    literals offset (t ++ u) = literals offset t ++ literals (offset + t.length) u

variable {t u w : List UInt8} {ls ms : List (List UInt8)}

theorem literals_nil (offset : Nat) : literals offset [] = [] := by
  rw [literals]

theorem silent_nil : Silent [] := fun _ _ => rfl

theorem silent_byte {b : UInt8} (unquoted : b ≠ Byte.quote) (other : Byte.startsNumber b = false) :
    Silent [b] := by
  intro offset u
  rw [List.singleton_append, literals]
  simp [unquoted, other]

theorem Silent.append (h : Silent w) (g : Silent u) : Silent (w ++ u) := by
  intro offset v
  rw [List.append_assoc, h, g, List.length_append, Nat.add_assoc]

theorem silent_of_all (h : ∀ b ∈ w, b ≠ Byte.quote ∧ Byte.startsNumber b = false) : Silent w := by
  induction w with
  | nil => exact silent_nil
  | cons b rest ih =>
    exact (silent_byte (h b (by simp)).1 (h b (by simp)).2).append (ih fun b hb => h b (by simp [hb]))

theorem silent_space (h : Space w) : Silent w := by
  refine silent_of_all fun b hb => ?_
  have each : ∀ b, Byte.isWhitespace b → b ≠ Byte.quote ∧ Byte.startsNumber b = false := by
    decide +kernel
  exact each b (h b hb)

theorem silent_string {s : String} (h : StringText t s) : Silent t := by
  obtain ⟨body, _⟩ := h
  rename_i inner
  intro offset u
  have length := Quoted.bodyLength_of_body body 0 u
  rw [List.append_assoc, List.singleton_append, List.cons_append, literals]
  simp [length]
  rfl

theorem silent_keyword {v : Value} (h : KeywordText t v) : Silent t := by
  cases h <;> exact silent_of_all (by decide +kernel)

theorem Silent.literals (h : Silent w) (offset : Nat) : literals offset w = [] := by
  have alone := h offset []
  rwa [List.append_nil, literals_nil] at alone

theorem Silent.scans (h : Silent w) : Scans w [] :=
  ⟨fun offset => by rw [h.literals]; rfl, fun offset u _ => by rw [h, h.literals]; rfl⟩

theorem Silent.before (h : Silent w) (g : Scans t ls) : Scans (w ++ t) ls := by
  refine ⟨fun offset => ?_, fun offset u ends => ?_⟩
  · rw [h, g.texts]
  · rw [List.append_assoc, h, h, g.append _ _ ends, List.length_append, Nat.add_assoc]

theorem Ends.append (h : Ends t) (g : Ends u) : Ends (t ++ u) := by
  cases t with
  | nil => exact g
  | cons b t => exact h

theorem Scans.then (h : Scans t ls) (g : Scans u ms) (ends : Ends u) :
    Scans (t ++ u) (ls ++ ms) := by
  refine ⟨fun offset => ?_, fun offset v after => ?_⟩
  · rw [h.append _ _ ends, List.map_append, h.texts, g.texts]
  · rw [List.append_assoc, h.append _ _ (ends.append after), g.append _ _ after,
      h.append _ _ ends, List.append_assoc, List.length_append, Nat.add_assoc]

theorem Scans.silent (h : Scans t ls) (g : Silent w) (ends : Ends w) : Scans (t ++ w) ls := by
  simpa using h.then g.scans ends

theorem ends_space (h : Space w) : Ends w :=
  fun b hb => Byte.endsNumber_of_isWhitespace (h b (List.mem_of_mem_head? hb))

theorem literals_number {v : Value} {asText : Bool} (h : NumberText asText t v) (offset : Nat)
    (ends : Ends u) : literals offset (t ++ u) = (offset, t) :: literals (offset + t.length) u := by
  obtain ⟨b, first, starts⟩ := h.starts
  obtain ⟨rest, rfl⟩ := List.head?_eq_some_iff.1 first
  have unquoted := (Byte.startsNumber_ne starts).2.2.1
  have digits : (rest ++ u).takeWhile (!Byte.endsNumber ·) = rest :=
    Byte.takeWhile_run (fun c hc => by simp [h.inner c (by simp [hc])])
      fun c hc => by simp [ends c hc]
  rw [List.cons_append, literals]
  simp [unquoted, starts, digits, Nat.add_assoc]

theorem literals_number_alone {v : Value} {asText : Bool} (h : NumberText asText t v)
    (offset : Nat) : literals offset t = [(offset, t)] := by
  have last := literals_number (u := []) h offset (by simp [Ends])
  rwa [List.append_nil, literals_nil] at last

theorem scans_number {v : Value} {asText : Bool} (h : NumberText asText t v) : Scans t [t] := by
  refine ⟨fun offset => by rw [literals_number_alone h]; rfl, fun offset u ends => ?_⟩
  rw [literals_number h offset ends, literals_number_alone h]
  rfl

section

variable {α : Type} {R : List UInt8 → α → Prop} {texts : α → List (List UInt8)} {as : List α}

theorem scans_padded {a : α} (imp : ∀ t, R t a → Scans t ls) (h : Padded R t a) : Scans t ls := by
  obtain ⟨before, inner, after⟩ := h
  rw [List.append_assoc]
  exact (silent_space before).before ((imp _ inner).silent (silent_space after) (ends_space after))

theorem scans_separated (imp : ∀ t a, R t a → Scans t (texts a))
    (h : Separated (Padded R) t as) : Scans t (as.flatMap texts) := by
  have comma : Silent [Byte.comma] := silent_byte (by decide) (by decide)
  induction h with
  | last item => simpa using scans_padded (fun t => imp t _) item
  | more item _ ih =>
    have ends : ∀ rest, Ends (Byte.comma :: rest) := by rintro rest b ⟨⟩; decide
    exact (scans_padded (fun t => imp t _) item).then (comma.before ih) (ends _)

theorem scans_bracketed {first last : UInt8} (opens : Silent [first]) (closes : Silent [last])
    (ends : Byte.endsNumber last) (imp : ∀ t a, R t a → Scans t (texts a))
    (h : Bracketed R first last t as) : Scans t (as.flatMap texts) := by
  have final : Ends [last] := by rintro b ⟨⟩; exact ends
  cases h with
  | empty space => exact (opens.append ((silent_space space).append closes)).scans
  | items inside => exact opens.before ((scans_separated imp inside).silent closes final)

theorem scans_member {R : List UInt8 → Value → Prop} {m : String × Value}
    (imp : ∀ t, R t m.2 → Scans t ls) (h : MemberText R t m) : Scans t ls := by
  obtain ⟨key, before, after, inner⟩ := h
  have colon : Silent [Byte.colon] := silent_byte (by decide) (by decide)
  have silent := (((silent_string key).append (silent_space before)).append colon).append
    (silent_space after)
  simpa using silent.before (imp _ inner)

end

/-- The literals of a value are the texts that its tree keeps. -/
theorem scans_value {v : Value} (h : ValueText true t v) :
    Scans t (v.literals.map Utf8.ofString) := by
  refine ValueText.induct (P := fun t v => Scans t (v.literals.map Utf8.ofString))
    ?array ?object ?string ?keyword ?number h
  case array =>
    intro t items inside
    rw [Value.literals_array, List.map_flatMap]
    exact scans_bracketed (silent_byte (by decide) (by decide)) (silent_byte (by decide) (by decide))
      (by decide) (fun _ _ => And.right) inside
  case object =>
    intro t members inside
    rw [Value.literals_object, List.map_flatMap]
    exact scans_bracketed (silent_byte (by decide) (by decide)) (silent_byte (by decide) (by decide))
      (by decide) (fun _ _ => scans_member fun _ => And.right) inside
  case string => exact fun t s text => (silent_string text).scans
  case keyword =>
    intro t v word
    have silent := (silent_keyword word).scans
    cases word <;> exact silent
  case number =>
    intro t v text
    have kept := Number.ofString_literalText text.decoded
    cases (Number.decode_kept text.decoded).symm.trans text.decoded
    change Scans t [Utf8.ofString (Number.literalText t)]
    rw [kept]
    exact scans_number text

theorem scans_document {v : Value} {input : List UInt8} (h : DocumentText true input v) :
    Scans input (v.literals.map Utf8.ofString) :=
  scans_padded (fun _ inner => scans_value (value_of_container inner)) h

theorem inner_literals (offset : Nat) (bytes : List UInt8) :
    ∀ l ∈ literals offset bytes, ∀ b ∈ l.2, Byte.endsNumber b = false := by
  fun_induction literals offset bytes with
  | case1 => simp
  | case2 => simp
  | case3 _ _ _ _ ih => exact ih
  | case4 _ b rest _ starts digits ih =>
    rintro l (_ | ⟨_, hl⟩)
    · rintro c (_ | ⟨_, hc⟩)
      · exact Byte.endsNumber_of_startsNumber starts
      · simpa using List.mem_takeWhile_imp hc
    · exact ih l hl
  | case5 _ _ _ _ _ ih => exact ih

/-- A literal stands in the text where it is said to start. -/
theorem literals_at (offset : Nat) (bytes : List UInt8) :
    ∀ l ∈ literals offset bytes, ∃ before after, bytes = before ++ l.2 ++ after ∧
      l.1 = offset + before.length := by
  -- What is found in the rest is found in the whole, further on by what was passed.
  have passed : ∀ {p tail whole : List UInt8} {offset start : Nat} {l : Nat × List UInt8},
      whole = p ++ tail → start = offset + p.length →
      (∃ before after, tail = before ++ l.2 ++ after ∧ l.1 = start + before.length) →
      ∃ before after, whole = before ++ l.2 ++ after ∧ l.1 = offset + before.length := by
    rintro p _ _ offset _ l rfl rfl ⟨before, after, rfl, start⟩
    exact ⟨p ++ before, after, by simp, by rw [start, List.length_append]; omega⟩
  fun_induction literals offset bytes with
  | case1 => simp
  | case2 => simp
  | case3 offset rest n length ih =>
    intro l hl
    obtain ⟨body, after, rfl, rfl, _⟩ := Quoted.body_of_bodyLength length
    refine passed (p := Byte.quote :: (body ++ [Byte.quote])) ?_ ?_ (ih l hl)
    · simp [List.drop_append]
    · simp
      omega
  | case4 offset b rest _ _ digits ih =>
    have parts : b :: rest = b :: digits ++ rest.drop digits.length := by
      have prefixed := List.takeWhile_prefix (!Byte.endsNumber ·) (l := rest)
      rw [List.cons_append, List.prefix_iff_eq_append.1 prefixed]
    rintro l (_ | ⟨_, hl⟩)
    · exact ⟨[], rest.drop digits.length, parts, rfl⟩
    · exact passed (p := b :: digits) parts (by rw [List.length_cons]; omega) (ih l hl)
  | case5 offset b rest _ _ ih =>
    exact fun l hl => passed (p := [b]) rfl rfl (ih l hl)

end Document

end JsonTree
