import JsonTree.Proofs.Bytes
import JsonTree.Proofs.Grammar
import JsonTree.Whitespace.Lanes

/-!
What readers take. An input splits into the text that is taken and what is left. A reader is sound
for a relation if what it takes is related to its result, and it takes a text if the text is read in
full wherever nothing or a delimiter follows.
-/
namespace JsonTree

namespace Input

structure Splits (input : Input) (t : List UInt8) (rest : Input) : Prop where
  bytes : input.bytes = t ++ rest.bytes
  offset : rest.offset = input.offset + t.length

/-- Nothing is left, or a byte that ends a number comes first. -/
def Delimited (input : Input) : Prop := ∀ b ∈ input.bytes.head?, Byte.endsNumber b

theorem splits_skip {input : Input} {t u : List UInt8} (h : input.bytes = t ++ u) :
    input.Splits t (input.skip t.length) := ⟨by simp [skip, h], rfl⟩

theorem Splits.skip_eq {input rest : Input} {t : List UInt8} (h : input.Splits t rest) :
    input.skip t.length = rest := by
  obtain ⟨bytes, offset⟩ := h
  simp [skip, bytes, ← offset]

theorem Splits.refl (input : Input) : input.Splits [] input := ⟨rfl, rfl⟩

theorem Splits.trans {input middle rest : Input} {t u : List UInt8} (h : input.Splits t middle)
    (g : middle.Splits u rest) : input.Splits (t ++ u) rest :=
  ⟨by rw [h.bytes, g.bytes, List.append_assoc],
    by rw [g.offset, h.offset, List.length_append, Nat.add_assoc]⟩

theorem Splits.left {input rest : Input} {t u : List UInt8} (h : input.Splits (t ++ u) rest) :
    input.Splits t (input.skip t.length) :=
  splits_skip (h.bytes.trans (List.append_assoc _ _ _))

theorem Splits.right {input rest : Input} {t u : List UInt8} (h : input.Splits (t ++ u) rest) :
    (input.skip t.length).Splits u rest := by
  constructor
  · simp [skip, h.bytes]
  · simp [skip, h.offset, Nat.add_assoc]

theorem skipWhitespace_eq (input : Input) :
    input.skipWhitespace = input.skip (input.bytes.takeWhile Byte.isWhitespace).length := by
  rw [skipWhitespace, Whitespace.wideRun_eq_run, Whitespace.run]

theorem splits_skipWhitespace (input : Input) :
    ∃ w, Grammar.Space w ∧ input.Splits w input.skipWhitespace := by
  refine ⟨input.bytes.takeWhile Byte.isWhitespace, ?_, ?_⟩
  · exact fun _ => List.mem_takeWhile_imp
  · rw [skipWhitespace_eq]
    exact splits_skip (List.takeWhile_append_dropWhile (p := Byte.isWhitespace)).symm

theorem Splits.skipWhitespace {input rest : Input} {w t : List UInt8}
    (h : input.Splits (w ++ t) rest) (space : Grammar.Space w)
    (stops : ∀ b ∈ (t ++ rest.bytes).head?, Byte.isWhitespace b = false) :
    input.skipWhitespace.Splits t rest := by
  have run : input.bytes.takeWhile Byte.isWhitespace = w := by
    rw [h.bytes, List.append_assoc]
    exact Byte.takeWhile_run space stops
  rw [skipWhitespace_eq, run]
  exact h.right

theorem skipWhitespace_mk (offset : Nat) (bytes : List UInt8) :
    skipWhitespace ⟨offset, bytes⟩ = ⟨offset + (bytes.takeWhile Byte.isWhitespace).length,
      bytes.dropWhile Byte.isWhitespace⟩ := by
  have parts := List.takeWhile_append_dropWhile (p := Byte.isWhitespace) (l := bytes)
  have left : bytes.drop (bytes.takeWhile Byte.isWhitespace).length =
      bytes.dropWhile Byte.isWhitespace := by
    conv => lhs; arg 2; rw [← parts]
    exact List.drop_left
  rw [skipWhitespace_eq, skip, left]

theorem skipWhitespace_append {w : List UInt8} (space : Grammar.Space w) (offset : Nat)
    (left : List UInt8) :
    skipWhitespace ⟨offset, w ++ left⟩ = skipWhitespace ⟨offset + w.length, left⟩ := by
  rw [skipWhitespace_mk, skipWhitespace_mk, List.takeWhile_append_of_pos space,
    List.dropWhile_append_of_pos space, List.length_append, Nat.add_assoc]

/-- Texts that lead to the same place from two starts tell how far apart the starts are. -/
theorem Splits.offset_eq {input inside rest : Input} {w t : List UInt8}
    (h : input.Splits (w ++ t) rest) (g : inside.Splits t rest) :
    inside.offset = input.offset + w.length := by
  have whole := h.offset
  have part := g.offset
  rw [List.length_append] at whole
  omega

end Input

namespace Reader

variable {α : Type} {close : UInt8} {R : List UInt8 → α → Prop}

def Sound (item : Reader α) (R : List UInt8 → α → Prop) : Prop :=
  ∀ ⦃input a rest⦄, item.read input = .ok (a, rest) → ∃ t, R t a ∧ input.Splits t rest

def Takes (item : Reader α) (t : List UInt8) (a : α) : Prop :=
  ∀ ⦃input rest⦄, input.Splits t rest → rest.Delimited → item.read input = .ok (a, rest)

theorem expect_sound {b : UInt8} {input rest : Input} (h : expect b input = .ok rest) :
    input.Splits [b] rest := by
  unfold expect at h
  split at h
  · contradiction
  · rename_i c more left
    split at h
    · rename_i same
      cases h
      exact Input.splits_skip (u := more) (by rw [left, same]; rfl)
    · contradiction

theorem expect_of_splits {b : UInt8} {t : List UInt8} {input rest : Input}
    (h : input.Splits (b :: t) rest) : ∃ middle, expect b input = .ok middle ∧
      middle.Splits t rest := by
  refine ⟨input.skip 1, ?_, Input.Splits.right (t := [b]) h⟩
  simp [expect, h.bytes]

theorem separator_sound {input rest : Input} {more : Bool}
    (h : separator close input = .ok (more, rest)) :
    input.Splits [if more then Byte.comma else close] rest := by
  unfold separator at h
  split at h
  · contradiction
  · rename_i b left hb
    split at h
    · rename_i comma
      cases h
      exact Input.splits_skip (u := left) (by rw [hb, comma]; rfl)
    · split at h
      · rename_i closes
        cases h
        exact Input.splits_skip (u := left) (by rw [hb, closes]; rfl)
      · contradiction

theorem separated_read (item : Reader α) (close : UInt8) (input : Input) :
    (separated item close).read input = (item.read input.skipWhitespace).bind fun p =>
      (separator close p.2.skipWhitespace).bind fun q => .ok ((p.1, q.1), q.2) := by
  simp only [separated]
  cases item.read input.skipWhitespace with
  | error => rfl
  | ok p =>
    simp only [Except.bind]
    cases separator close p.2.skipWhitespace <;> rfl

theorem separated_sound {item : Reader α} (sound : item.Sound R) {input rest : Input} {a : α}
    {more : Bool} (h : (separated item close).read input = .ok ((a, more), rest)) :
    ∃ t, Grammar.Padded R t a ∧ input.Splits (t ++ [if more then Byte.comma else close]) rest := by
  simp only [separated] at h
  split at h
  · contradiction
  · rename_i read
    split at h
    · contradiction
    · rename_i next
      cases h
      obtain ⟨w, before, skipped⟩ := input.splits_skipWhitespace
      obtain ⟨t, inner, taken⟩ := sound read
      obtain ⟨w', after, left⟩ := Input.splits_skipWhitespace _
      exact ⟨_, .mk before inner after, ((skipped.trans taken).trans left).trans
        (separator_sound next)⟩

theorem items_read (item : Reader α) (close : UInt8) (done : List α) (input : Input) :
    items item close done input = ((separated item close).read input).bind fun p =>
      if p.1.2 then items item close (p.1.1 :: done) p.2
      else .ok ((p.1.1 :: done).reverse, p.2) := by
  rw [items]
  split <;> rename_i step <;> rw [step] <;> rfl

section

variable {item : Reader α} {done : List α} {input rest : Input} {a : α} {e : ParseError}

theorem items_failed (step : (separated item close).read input = .error e) :
    items item close done input = .error e := by
  rw [items_read, step]
  rfl

theorem items_more (step : (separated item close).read input = .ok ((a, true), rest)) :
    items item close done input = items item close (a :: done) rest := by
  rw [items_read, step]
  rfl

theorem items_last (step : (separated item close).read input = .ok ((a, false), rest)) :
    items item close done input = .ok ((a :: done).reverse, rest) := by
  rw [items_read, step]
  rfl

end

theorem items_sound {item : Reader α} (sound : item.Sound R) {done as : List α}
    {input rest : Input} (h : items item close done input = .ok (as, rest)) :
    ∃ t new, as = done.reverse ++ new ∧ Grammar.Separated (Grammar.Padded R) t new ∧
      input.Splits (t ++ [close]) rest := by
  fun_induction items item close done input with
  | case1 => contradiction
  | case2 done input a middle step ih =>
    obtain ⟨t, first, taken⟩ := separated_sound sound step
    obtain ⟨u, new, same, others, left⟩ := ih h
    refine ⟨t ++ Byte.comma :: u, a :: new, ?_, .more first others, ?_⟩
    · simp [same]
    · simpa using taken.trans left
  | case3 done input a middle step =>
    cases h
    obtain ⟨t, first, taken⟩ := separated_sound sound step
    exact ⟨t, [a], by simp, .last first, by simpa using taken⟩

theorem container_sound {item : Reader α} (sound : item.Sound R) {first : UInt8}
    {input rest : Input} {left : List UInt8} (opens : input.bytes = first :: left) {as : List α}
    (h : container item close (input.skip 1) = .ok (as, rest)) :
    ∃ t, Grammar.Bracketed R first close t as ∧ input.Splits t rest := by
  have taken : input.Splits [first] (input.skip 1) := Input.splits_skip (u := left) opens
  obtain ⟨w, space, skipped⟩ := (input.skip 1).splits_skipWhitespace
  simp only [container] at h
  split at h
  · rename_i closes
    cases h
    obtain ⟨b, others⟩ := List.head?_eq_some_iff.1 closes
    exact ⟨_, .empty space, by
      simpa using (taken.trans skipped).trans (Input.splits_skip (t := [close]) others)⟩
  · obtain ⟨t, new, rfl, inside, inner⟩ := items_sound sound h
    refine ⟨_, .items (inside.after space), ?_⟩
    simpa using (taken.trans skipped).trans inner

theorem exists_opening {first : UInt8} {t : List UInt8} {as : List α}
    (h : Grammar.Bracketed R first close t as) {input rest : Input} (g : input.Splits t rest) :
    ∃ left, input.bytes = first :: left := by
  cases h with
  | empty => exact ⟨_, g.bytes⟩
  | items => exact ⟨_, g.bytes⟩

/-- Text that can be told from whitespace and from a closing bracket by its first byte. -/
def Leads (t : List UInt8) : Prop :=
  ∃ b ∈ t.head?, Byte.isWhitespace b = false ∧ b ≠ Byte.closeBracket ∧ b ≠ Byte.closeBrace

theorem Leads.stops {t u : List UInt8} (h : Leads t) :
    ∀ b ∈ (t ++ u).head?, Byte.isWhitespace b = false := by
  obtain ⟨b, hb, other, _⟩ := h
  obtain ⟨more, rfl⟩ := List.head?_eq_some_iff.1 hb
  simpa using other

theorem Leads.append {t : List UInt8} (h : Leads t) (u : List UInt8) : Leads (t ++ u) := by
  obtain ⟨b, hb, others⟩ := h
  obtain ⟨more, rfl⟩ := List.head?_eq_some_iff.1 hb
  exact ⟨b, rfl, others⟩

theorem Leads.skipWhitespace {t : List UInt8} (h : Leads t) (offset : Nat) :
    Input.skipWhitespace ⟨offset, t⟩ = ⟨offset, t⟩ := by
  obtain ⟨b, hb, other, _⟩ := h
  obtain ⟨more, rfl⟩ := List.head?_eq_some_iff.1 hb
  simp [Input.skipWhitespace_mk, other]

section

variable (closes : close = Byte.closeBracket ∨ close = Byte.closeBrace)
include closes

theorem endsNumber_separator (more : Bool) :
    Byte.endsNumber (if more then Byte.comma else close) := by
  rcases closes with rfl | rfl <;> cases more <;> decide

theorem isWhitespace_separator (more : Bool) :
    Byte.isWhitespace (if more then Byte.comma else close) = false := by
  rcases closes with rfl | rfl <;> cases more <;> decide

theorem separator_of_splits {input rest : Input} {more : Bool}
    (h : input.Splits [if more then Byte.comma else close] rest) :
    separator close input = .ok (more, rest) := by
  have other : close ≠ Byte.comma := by rcases closes with rfl | rfl <;> decide
  have left := h.skip_eq
  cases more <;> simp_all [separator, h.bytes]

/-- Where an item begins, and that it ends at a delimiter. -/
theorem separated_inside {w t w' : List UInt8} (before : Grammar.Space w) (leads : Leads t)
    (after : Grammar.Space w') (more : Bool) {input rest : Input}
    (g : input.Splits (w ++ t ++ w' ++ [if more then Byte.comma else close]) rest) :
    input.skipWhitespace.Splits (t ++ (w' ++ [if more then Byte.comma else close])) rest ∧
      (input.skipWhitespace.skip t.length).Delimited := by
  rw [List.append_assoc, List.append_assoc] at g
  have first := g.skipWhitespace before (by rw [List.append_assoc]; exact leads.stops)
  refine ⟨first, fun b hb => ?_⟩
  rw [first.right.bytes] at hb
  cases w' with
  | nil => cases hb; exact endsNumber_separator closes more
  | cons c w' => cases hb; exact Byte.endsNumber_of_isWhitespace (after _ (by simp))

theorem separated_of_splits {item : Reader α} {t : List UInt8} {a : α} (more : Bool)
    (h : Grammar.Padded (fun t a => Leads t ∧ item.Takes t a) t a) {input rest : Input}
    (g : input.Splits (t ++ [if more then Byte.comma else close]) rest) :
    (separated item close).read input = .ok ((a, more), rest) := by
  obtain ⟨before, ⟨leads, takes⟩, after⟩ := h
  obtain ⟨first, delimited⟩ := separated_inside closes before leads after more g
  have last := first.right.skipWhitespace after
    (by simpa using isWhitespace_separator closes more)
  simp only [separated, takes first.left delimited, separator_of_splits closes last]

theorem items_of_splits {item : Reader α} {t : List UInt8} {as : List α}
    (h : Grammar.Separated (Grammar.Padded fun t a => Leads t ∧ item.Takes t a) t as)
    {done : List α} {input rest : Input} (g : input.Splits (t ++ [close]) rest) :
    items item close done input = .ok (done.reverse ++ as, rest) := by
  induction h generalizing done input with
  | last first =>
    rw [items_last (separated_of_splits closes false first g), List.reverse_cons]
  | more first _ ih =>
    rw [List.append_assoc, List.cons_append, List.append_cons] at g
    rw [items_more (separated_of_splits closes true first g.left), ih g.right, List.reverse_cons,
      List.append_assoc]
    rfl

theorem container_inside {β : Type} (item : Reader α) {first : UInt8} {R : List UInt8 → β → Prop}
    {t : List UInt8} {as : List β} (leads : ∀ t a, R t a → Leads t)
    (h : Grammar.Separated (Grammar.Padded R) t as) {input rest : Input}
    (g : input.Splits (first :: t ++ [close]) rest) :
    ∃ w u inside, t = w ++ u ∧ Grammar.Space w ∧ Grammar.Separated (Grammar.Padded R) u as ∧
      inside.Splits (u ++ [close]) rest ∧
      container item close (input.skip 1) = items item close [] inside := by
  obtain ⟨w, u, rfl, space, inner, v, a, u', related, rfl⟩ := h.strip
  have opens := leads v a related
  have g' : (input.skip 1).Splits (w ++ (v ++ u' ++ [close])) rest := by
    simpa using Input.Splits.right (t := [first]) g
  have left := g'.skipWhitespace space (by simpa only [List.append_assoc] using opens.stops)
  refine ⟨w, v ++ u', _, rfl, space, inner, left, ?_⟩
  have other : (input.skip 1).skipWhitespace.bytes.head? ≠ some close := by
    obtain ⟨b, hb, _, others⟩ := opens
    obtain ⟨more, rfl⟩ := List.head?_eq_some_iff.1 hb
    rw [left.bytes]
    rcases closes with rfl | rfl <;> simp [others]
  simp only [container, if_neg other]

theorem container_of_splits {item : Reader α} {first : UInt8} {t : List UInt8} {as : List α}
    (h : Grammar.Bracketed (fun t a => Leads t ∧ item.Takes t a) first close t as)
    {input rest : Input} (g : input.Splits t rest) :
    container item close (input.skip 1) = .ok (as, rest) := by
  cases h with
  | empty space =>
    have left := (Input.Splits.right (t := [first]) g).skipWhitespace space
      (by simpa using isWhitespace_separator closes false)
    have opens : (input.skip 1).skipWhitespace.bytes.head? = some close := by
      rw [← List.length_singleton (a := first), left.bytes]; rfl
    simp only [container, if_pos opens]
    rw [← left.skip_eq]; rfl
  | items inside =>
    obtain ⟨w, u, _, rfl, _, inner, left, same⟩ :=
      container_inside closes item (fun _ _ => And.left) inside g
    rw [same]
    exact items_of_splits closes inner left

end

end Reader

end JsonTree
