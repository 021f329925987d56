import JsonTree.Document

/-!
The grammar of documents, as relations between a text and what it denotes. A relation for an item
gives one for items with whitespace around them, for items between commas, and for a container.
-/
namespace JsonTree.Grammar

def Space (w : List UInt8) : Prop := ∀ b ∈ w, Byte.isWhitespace b

/-- What can stand between two quotes. A backslash takes the next byte with it, whatever that is. -/
inductive Body : List UInt8 → Prop where
  | nil : Body []
  | plain {b : UInt8} {rest : List UInt8} : b ≠ Byte.backslash → b ≠ Byte.quote → b ≠ Byte.nul →
      Body rest → Body (b :: rest)
  | escaped {b : UInt8} {rest : List UInt8} : Body rest → Body (Byte.backslash :: b :: rest)

/-- A quoted body that the decoder of strings accepts. -/
inductive StringText : List UInt8 → String → Prop where
  | quoted {body : List UInt8} {s : String} : Body body → Quoted.decode body = .ok s →
      StringText (Byte.quote :: body ++ [Byte.quote]) s

/-- A run without delimiters that the decoder of numbers accepts. -/
structure NumberText (asText : Bool) (t : List UInt8) (v : Value) : Prop where
  starts : ∃ b ∈ t.head?, Byte.startsNumber b
  inner : ∀ b ∈ t, Byte.endsNumber b = false
  decoded : Number.decode asText t = .ok v

section

variable {α : Type} (R : List UInt8 → α → Prop)

/-- An item with whitespace around it. -/
inductive Padded : List UInt8 → α → Prop where
  | mk {w t w' : List UInt8} {a : α} : Space w → R t a → Space w' → Padded (w ++ t ++ w') a

/-- One item or more, with a comma between each two. -/
inductive Separated : List UInt8 → List α → Prop where
  | last {t : List UInt8} {a : α} : R t a → Separated t [a]
  | more {t rest : List UInt8} {a : α} {as : List α} : R t a → Separated rest as →
      Separated (t ++ Byte.comma :: rest) (a :: as)

/-- Items between two brackets, or whitespace alone where there are none. -/
inductive Bracketed (first last : UInt8) : List UInt8 → List α → Prop where
  | empty {w : List UInt8} : Space w → Bracketed first last (first :: w ++ [last]) []
  | items {t : List UInt8} {as : List α} : Separated (Padded R) t as →
      Bracketed first last (first :: t ++ [last]) as

end

/-- A key, a colon and a value, with whitespace on both sides of the colon. -/
inductive MemberText (R : List UInt8 → Value → Prop) : List UInt8 → String × Value → Prop where
  | mk {k w w' t : List UInt8} {key : String} {v : Value} : StringText k key → Space w →
      Space w' → R t v → MemberText R (k ++ w ++ Byte.colon :: w' ++ t) (key, v)

inductive KeywordText : List UInt8 → Value → Prop where
  | true : KeywordText Document.trueWord (.bool true)
  | false : KeywordText Document.falseWord (.bool false)
  | null : KeywordText Document.nullWord .null

inductive ValueText (asText : Bool) : List UInt8 → Value → Prop where
  | array {t : List UInt8} {items : List Value} :
      Bracketed (ValueText asText) Byte.openBracket Byte.closeBracket t items →
      ValueText asText t (.array items)
  | object {t : List UInt8} {members : List (String × Value)} :
      Bracketed (MemberText (ValueText asText)) Byte.openBrace Byte.closeBrace t members →
      ValueText asText t (.object members)
  | string {t : List UInt8} {s : String} : StringText t s → ValueText asText t (.string s)
  | keyword {t : List UInt8} {v : Value} : KeywordText t v → ValueText asText t v
  | number {t : List UInt8} {v : Value} : NumberText asText t v → ValueText asText t v

def ContainerText (asText : Bool) (t : List UInt8) : Value → Prop
  | .array items => Bracketed (ValueText asText) Byte.openBracket Byte.closeBracket t items
  | .object members =>
    Bracketed (MemberText (ValueText asText)) Byte.openBrace Byte.closeBrace t members
  | _ => False

/-- One container with whitespace around it. -/
def DocumentText (asText : Bool) : List UInt8 → Value → Prop := Padded (ContainerText asText)

section

variable {α : Type} {R S : List UInt8 → α → Prop} {t : List UInt8} {a : α} {as : List α}

theorem Padded.mono (imp : ∀ t, R t a → S t a) (h : Padded R t a) : Padded S t a := by
  cases h with
  | mk before inner after => exact .mk before (imp _ inner) after

theorem Separated.mono (imp : ∀ t, ∀ a ∈ as, R t a → S t a) (h : Separated R t as) :
    Separated S t as := by
  induction h with
  | last item => exact .last (imp _ _ (by simp) item)
  | more item _ ih =>
    exact .more (imp _ _ (by simp) item) (ih fun t a ha => imp t a (by simp [ha]))

theorem Bracketed.mono {first last : UInt8} (imp : ∀ t, ∀ a ∈ as, R t a → S t a)
    (h : Bracketed R first last t as) : Bracketed S first last t as := by
  cases h with
  | empty space => exact .empty space
  | items inside => exact .items (inside.mono fun _ a ha => Padded.mono fun t => imp t a ha)

theorem Separated.all {p : α → Prop} (imp : ∀ t a, R t a → p a) (h : Separated R t as) :
    ∀ a ∈ as, p a := by
  induction h with
  | last item => simpa using imp _ _ item
  | more item _ ih =>
    rintro a (_ | ⟨_, ha⟩)
    · exact imp _ _ item
    · exact ih a ha

theorem Bracketed.all {first last : UInt8} {p : α → Prop} (imp : ∀ t a, R t a → p a)
    (h : Bracketed R first last t as) : ∀ a ∈ as, p a := by
  cases h with
  | empty => simp
  | items inside =>
    refine inside.all ?_
    rintro _ a ⟨_, inner, _⟩
    exact imp _ _ inner

theorem space_nil : Space [] := by simp [Space]

theorem Space.append {w w' : List UInt8} (h : Space w) (g : Space w') : Space (w ++ w') := by
  intro b hb
  rcases List.mem_append.1 hb with hb | hb
  · exact h b hb
  · exact g b hb

theorem Padded.of (h : R t a) : Padded R t a := by
  simpa using Padded.mk space_nil h space_nil

theorem Padded.after {w : List UInt8} (space : Space w) (h : Padded R t a) :
    Padded R (w ++ t) a := by
  cases h with
  | mk before inner after => simpa using Padded.mk (space.append before) inner after

theorem Padded.before {w : List UInt8} (h : Padded R t a) (space : Space w) :
    Padded R (t ++ w) a := by
  cases h with
  | mk before inner after => simpa using Padded.mk before inner (after.append space)

theorem Separated.after {w : List UInt8} (space : Space w) (h : Separated (Padded R) t as) :
    Separated (Padded R) (w ++ t) as := by
  cases h with
  | last item => exact .last (item.after space)
  | more item others =>
    rw [← List.append_assoc]
    exact .more (item.after space) others

theorem Separated.before {w : List UInt8} (h : Separated (Padded R) t as) (space : Space w) :
    Separated (Padded R) (t ++ w) as := by
  induction h with
  | last item => exact .last (item.before space)
  | more item _ ih =>
    rw [List.append_assoc, List.cons_append]
    exact .more item ih

theorem Separated.strip (h : Separated (Padded R) t as) :
    ∃ w u, t = w ++ u ∧ Space w ∧ Separated (Padded R) u as ∧ ∃ v a u', R v a ∧ u = v ++ u' := by
  cases h with
  | last item =>
    obtain ⟨before, inner, after⟩ := item
    have first := Padded.mk space_nil inner after
    exact ⟨_, _, List.append_assoc _ _ _, before, .last first, _, _, _, inner, rfl⟩
  | more item others =>
    obtain ⟨before, inner, after⟩ := item
    have first := Padded.mk space_nil inner after
    exact ⟨_, _, by simp only [List.append_assoc]; rfl, before, .more first others, _, _, _, inner,
      List.append_assoc _ _ _⟩

end

theorem MemberText.mono {R S : List UInt8 → Value → Prop} {t : List UInt8} {m : String × Value}
    (imp : ∀ t, R t m.2 → S t m.2) (h : MemberText R t m) : MemberText S t m := by
  cases h with
  | mk key before after inner => exact .mk key before after (imp _ inner)

theorem MemberText.value {R : List UInt8 → Value → Prop} {p : Value → Prop}
    (imp : ∀ t v, R t v → p v) {t : List UInt8} {m : String × Value} (h : MemberText R t m) :
    p m.2 := by
  cases h with
  | mk _ _ _ inner => exact imp _ _ inner

/-- A property of values and their texts, shown with it at hand for the values in a container. -/
theorem ValueText.induct {asText : Bool} {P : List UInt8 → Value → Prop}
    (array : ∀ t items, Bracketed (fun t v => ValueText asText t v ∧ P t v) Byte.openBracket
      Byte.closeBracket t items → P t (.array items))
    (object : ∀ t members, Bracketed (MemberText fun t v => ValueText asText t v ∧ P t v)
      Byte.openBrace Byte.closeBrace t members → P t (.object members))
    (string : ∀ t s, StringText t s → P t (.string s))
    (keyword : ∀ t v, KeywordText t v → P t v) (number : ∀ t v, NumberText asText t v → P t v)
    {t : List UInt8} {v : Value} (h : ValueText asText t v) : P t v := by
  let Q := fun t v => ValueText asText t v ∧ P t v
  refine @ValueText.rec asText (fun t v _ => P t v)
    (fun t items _ => Bracketed Q Byte.openBracket Byte.closeBracket t items)
    (fun t members _ => Bracketed (MemberText Q) Byte.openBrace Byte.closeBrace t members)
    (fun t items _ => Separated (Padded Q) t items)
    (fun t members _ => Separated (Padded (MemberText Q)) t members)
    (fun t v _ => Padded Q t v) (fun t m _ => Padded (MemberText Q) t m)
    (fun t m _ => MemberText Q t m)
    (fun _ => array _ _) (fun _ => object _ _) (string _ _) (keyword _ _) (number _ _)
    .empty (fun _ => .items) .empty (fun _ => .items)
    (fun _ => .last) (fun _ _ => .more) (fun _ => .last) (fun _ _ => .more)
    (fun before inner after holds => .mk before ⟨inner, holds⟩ after)
    (fun before _ after inner => .mk before inner after)
    (fun key before after inner holds => .mk key before after ⟨inner, holds⟩) _ _ h

end JsonTree.Grammar
