import JsonTree.Proofs.NumberModes

/-!
A document cut short is refused, and for being cut. Wherever the cut falls, the reader comes to the
end of the text before it looks for anything else: only a number literal that is cut in the middle can
be taken for a malformed one, and only a text cut before its root lacks one.
-/
namespace JsonTree

open Grammar Document

/-- The text that begins at the offset has a literal around the place. -/
def CutsLiteral (offset : Nat) (t : List UInt8) (place : Nat) : Prop :=
  ∃ l ∈ literals offset t, l.1 < place ∧ place < l.1 + l.2.length

/-- What is reported of a text that ends at a place inside the root. -/
inductive Severed (offset : Nat) (t : List UInt8) (place : Nat) : ErrorKind → Prop where
  | nothingLeft : Severed offset t place .endOfInput
  | keyword : Severed offset t place .truncatedKeyword
  | number {kind : ErrorKind} : kind = .invalidNumber ∨ kind = .invalidHex →
      CutsLiteral offset t place → Severed offset t place kind

/-- Each proper prefix of the text is refused for being cut. -/
def Refuses {β : Type} (read : Input → Except ParseError β) (t : List UInt8) : Prop :=
  ∀ offset p q, t = p ++ q → q ≠ [] →
    ∃ e, read ⟨offset, p⟩ = .error e ∧ Severed offset t (offset + p.length) e.kind

/-- A text cut at the place is refused for it, or is used up. -/
inductive CutOff (offset : Nat) (t : List UInt8) (place : Nat) {α : Type} :
    Except ParseError (α × Input) → Prop where
  | refused {e : ParseError} : Severed offset t place e.kind → CutOff offset t place (.error e)
  | spent (a : α) {rest : Input} : rest.bytes = [] → CutOff offset t place (.ok (a, rest))

def Detects {α : Type} (read : Input → Except ParseError (α × Input)) (t : List UInt8) : Prop :=
  ∀ offset p q, t = p ++ q → q ≠ [] → CutOff offset t (offset + p.length) (read ⟨offset, p⟩)

section

variable {t u w p q : List UInt8} {ls : List (List UInt8)} {offset place : Nat} {kind : ErrorKind}

/-- The literals of two texts in a row are those of each. -/
def Apart (t u : List UInt8) : Prop :=
  ∀ offset, literals offset (t ++ u) = literals offset t ++ literals (offset + t.length) u

theorem Document.Silent.apart (h : Silent w) (u : List UInt8) : Apart w u := by
  intro offset
  rw [h, h.literals, List.nil_append]

theorem Document.Scans.apart (h : Scans t ls) (ends : Ends u) : Apart t u :=
  fun offset => h.append offset u ends

/-- Behind a delimiter anything may follow. -/
theorem Document.Scans.apart_byte {b : UInt8} (h : Scans t ls) (silent : Silent [b])
    (ends : Byte.endsNumber b) (u : List UInt8) : Apart (t ++ [b]) u := by
  have delimited : ∀ v, Ends ([b] ++ v) := by rintro v _ ⟨⟩; exact ends
  have alone : Ends [b] := delimited []
  intro offset
  rw [List.append_assoc, h.append _ _ (delimited u), h.append _ _ alone, silent, silent.literals,
    List.append_nil, List.length_append, Nat.add_assoc]

theorem CutsLiteral.append (h : CutsLiteral offset t place) (apart : Apart t u) :
    CutsLiteral offset (t ++ u) place := by
  obtain ⟨l, found, around⟩ := h
  exact ⟨l, by rw [apart]; exact List.mem_append_left _ found, around⟩

theorem CutsLiteral.after (h : CutsLiteral (offset + t.length) u place) (apart : Apart t u) :
    CutsLiteral offset (t ++ u) place := by
  obtain ⟨l, found, around⟩ := h
  exact ⟨l, by rw [apart]; exact List.mem_append_right _ found, around⟩

theorem Severed.append (h : Severed offset t place kind) (apart : Apart t u) :
    Severed offset (t ++ u) place kind := by
  cases h with
  | nothingLeft => exact .nothingLeft
  | keyword => exact .keyword
  | number number cuts => exact .number number (cuts.append apart)

theorem Severed.after (h : Severed (offset + t.length) u place kind) (apart : Apart t u) :
    Severed offset (t ++ u) place kind := by
  cases h with
  | nothingLeft => exact .nothingLeft
  | keyword => exact .keyword
  | number number cuts => exact .number number (cuts.after apart)

theorem Severed.of_endOfInput (h : kind = .endOfInput) : Severed offset t place kind :=
  h ▸ .nothingLeft

theorem CutOff.after {α : Type} {x : Except ParseError (α × Input)}
    (h : CutOff (offset + t.length) u place x) (apart : Apart t u) :
    CutOff offset (t ++ u) place x := by
  cases h with
  | refused severed => exact .refused (severed.after apart)
  | spent a none_left => exact .spent a none_left

theorem Refuses.detects {α : Type} {read : Input → Except ParseError (α × Input)}
    (h : Refuses read t) : Detects read t := by
  intro offset p q parts cut
  obtain ⟨e, failed, severed⟩ := h offset p q parts cut
  rw [failed]
  exact .refused severed

/-- A cut of two texts is one of the first or one of the second. -/
theorem cut_append (parts : t ++ u = p ++ q) :
    (∃ q', q' ≠ [] ∧ t = p ++ q') ∨ ∃ p', p = t ++ p' ∧ u = p' ++ q := by
  rcases List.append_eq_append_iff.1 parts with ⟨p', rfl, rfl⟩ | ⟨q', rfl, rfl⟩
  · exact .inr ⟨p', rfl, rfl⟩
  · cases q' with
    | nil => exact .inr ⟨[], by simp, rfl⟩
    | cons b q' => exact .inl ⟨b :: q', List.cons_ne_nil _ _, rfl⟩

theorem Grammar.Space.cut (h : Space (p ++ q)) : Space p := fun b hb => h b (by simp [hb])

/-- What is cut off before a byte that follows whitespace is whitespace. -/
theorem Grammar.Space.cut_byte {b : UInt8} (h : Space w) (parts : w ++ [b] = p ++ q)
    (cut : q ≠ []) : Space p := by
  rcases cut_append parts with ⟨_, _, rfl⟩ | ⟨p', rfl, last⟩
  · exact h.cut
  · cases p' with
    | nil => simpa using h
    | cons c p' => simp_all

theorem skipWhitespace_space (h : Space w) (offset : Nat) :
    Input.skipWhitespace ⟨offset, w⟩ = ⟨offset + w.length, []⟩ := by
  rw [Input.skipWhitespace_mk, List.takeWhile_eq_self_iff.2 h, List.dropWhile_eq_nil_iff.2 h]

theorem skipWhitespace_cut (space : Space w) (leads : Reader.Leads (p ++ q)) (offset : Nat) :
    Input.skipWhitespace ⟨offset, w ++ p⟩ = ⟨offset + w.length, p⟩ := by
  rw [Input.skipWhitespace_append space, Input.skipWhitespace_mk]
  cases p with
  | nil => rfl
  | cons b p => simp [leads.stops (u := []) b rfl]

end

/-! ### Strings, keywords and numbers -/

/-- The end of the text is met before anything in the string is looked at. -/
theorem Quoted.bodyLength_cut {body p q : List UInt8} (h : Body body)
    (parts : body ++ [Byte.quote] = p ++ q) (cut : q ≠ []) (passed : Nat) :
    bodyLength passed false p = .error ⟨.endOfInput, passed + p.length⟩ := by
  induction h generalizing p passed with
  | nil =>
    cases p with
    | nil => rfl
    | cons b p => simp_all
  | @plain b rest other unquoted filled _ ih =>
    cases p with
    | nil => rfl
    | cons c p =>
      simp only [List.cons_append, List.cons.injEq] at parts
      obtain ⟨rfl, rest⟩ := parts
      simp [bodyLength, other, unquoted, filled, ih rest, Nat.add_assoc, Nat.add_comm 1]
  | @escaped b rest _ ih =>
    cases p with
    | nil => rfl
    | cons c p =>
      cases p with
      | nil =>
        simp only [List.cons_append, List.cons.injEq] at parts
        obtain ⟨rfl, _⟩ := parts
        rfl
      | cons d p =>
        simp only [List.cons_append, List.cons.injEq] at parts
        obtain ⟨rfl, rfl, rest⟩ := parts
        simp [bodyLength, ih rest]
        omega

theorem Quoted.read_cut {t p q : List UInt8} {b : UInt8} {s : String} (h : StringText t s)
    (parts : t = b :: p ++ q) (cut : q ≠ []) (offset : Nat) :
    ∃ e, read ⟨offset, b :: p⟩ = .error e ∧ e.kind = .endOfInput := by
  obtain ⟨body, _⟩ := h
  simp only [List.cons_append, List.cons.injEq] at parts
  obtain ⟨rfl, rest⟩ := parts
  refine ⟨(Fault.mk .endOfInput p.length).locate ⟨offset + 1, p⟩, ?_, rfl⟩
  simp only [read, Input.skip, List.drop_one, List.tail_cons, bodyLength_cut body rest cut,
    Nat.zero_add]

theorem Document.keyword_cut {word p q : List UInt8} (parts : word = p ++ q) (cut : q ≠ [])
    (v : Value) (mismatch : ErrorKind) (offset : Nat) :
    ∃ e, keyword word v mismatch ⟨offset, p⟩ = .error e ∧ e.kind = .truncatedKeyword := by
  refine ⟨Input.fail ⟨offset, p⟩ .truncatedKeyword, ?_, rfl⟩
  have short : p.length < word.length := by
    have some_left := List.length_pos_iff.2 cut
    rw [parts, List.length_append]
    omega
  simp only [keyword, List.length_take]
  rw [if_pos (by omega)]

/-- A literal cut short is refused, or it is another literal up to the end of the text. -/
theorem Number.read_cut {asText : Bool} {t p q : List UInt8} {v : Value} (h : NumberText asText t v)
    (parts : t = p ++ q) (cut : q ≠ []) (some_byte : p ≠ []) (offset : Nat) :
    CutOff offset t (offset + p.length) (Number.read asText ⟨offset, p⟩) := by
  have inner : ∀ b ∈ p, Byte.endsNumber b = false := fun b hb => h.inner b (by simp [parts, hb])
  have whole : (Input.mk offset p).Splits p ⟨offset + p.length, []⟩ := ⟨by simp, rfl⟩
  rw [read_eq whole inner (by simp [Input.Delimited])]
  cases decoded : decode asText p with
  | ok v => exact .spent v rfl
  | error f =>
    refine .refused (.number (decode_inLiteral decoded).kind ⟨(offset, t), ?_, ?_, ?_⟩)
    · rw [literals_number_alone h]
      exact List.mem_singleton_self _
    · exact Nat.lt_add_of_pos_right (List.length_pos_iff.2 some_byte)
    · rw [parts, List.length_append]
      exact Nat.add_lt_add_left (Nat.lt_add_of_pos_right (List.length_pos_iff.2 cut)) _

/-! ### Items and what surrounds them -/

section

variable {α β : Type} {t u w : List UInt8}

/-- The end of the text is what fails where nothing is left. -/
def Needs (read : Input → Except ParseError β) : Prop :=
  ∀ offset, ∃ e, read ⟨offset, []⟩ = .error e ∧ e.kind = .endOfInput

theorem Needs.gap {read : Input → Except ParseError β} (h : Needs read) :
    Needs fun input => read input.skipWhitespace := by
  intro offset
  simpa using! h offset

theorem Needs.bind {read : Input → Except ParseError α} (h : Needs read)
    (next : α → Except ParseError β) : Needs fun input => (read input).bind next := by
  intro offset
  obtain ⟨e, failed, kind⟩ := h offset
  exact ⟨e, by simp only [failed, Except.bind], kind⟩

theorem needs_expect (b : UInt8) : Needs (Reader.expect b) := fun _ => ⟨_, rfl, rfl⟩

theorem needs_separator (close : UInt8) : Needs (Reader.separator close) := fun _ => ⟨_, rfl, rfl⟩

theorem Needs.refuses_space {read : Input → Except ParseError β} (h : Needs read) {p : List UInt8}
    (space : Space p) (offset place : Nat) (t : List UInt8) :
    ∃ e, read (Input.skipWhitespace ⟨offset, p⟩) = .error e ∧ Severed offset t place e.kind := by
  rw [skipWhitespace_space space]
  obtain ⟨e, failed, kind⟩ := h (offset + p.length)
  exact ⟨e, failed, .of_endOfInput kind⟩

/-- Nothing but whitespace is left before the byte that comes next. -/
theorem Needs.refuses_byte {read : Input → Except ParseError β} (h : Needs read)
    (space : Space w) (b : UInt8) :
    Refuses (fun input => read input.skipWhitespace) (w ++ [b]) :=
  fun offset _ _ parts cut => h.refuses_space (space.cut_byte parts cut) offset _ _

theorem Detects.gap {read : Input → Except ParseError (α × Input)} (h : Detects read t)
    (needs : Needs read) (leads : Reader.Leads t) (space : Space w) :
    Detects (fun input => read input.skipWhitespace) (w ++ t) := by
  intro offset p q parts cut
  dsimp only
  rcases cut_append parts with ⟨_, _, before⟩ | ⟨p', rfl, inside⟩
  · rw [before] at space
    obtain ⟨e, failed, severed⟩ :=
      needs.refuses_space space.cut offset (offset + p.length) (w ++ t)
    rw [failed]
    exact .refused severed
  · rw [skipWhitespace_cut space (inside ▸ leads), List.length_append, ← Nat.add_assoc]
    exact (h _ p' q inside cut).after ((silent_space space).apart t)

theorem Detects.map {read : Input → Except ParseError (α × Input)} (h : Detects read t)
    (f : α → β) : Detects (fun input => (read input).bind fun x => .ok (f x.1, x.2)) t := by
  intro offset p q parts cut
  have first := h offset p q parts cut
  dsimp only
  generalize read ⟨offset, p⟩ = result at first ⊢
  cases first with
  | refused severed => exact .refused severed
  | spent a none_left => exact .spent (f a) none_left

/-- One text after another, the first of which is refused where it is cut. -/
theorem Refuses.bind {read : Input → Except ParseError β} {next : β → Except ParseError (α × Input)}
    (h : Refuses read t) (apart : Apart t u)
    (g : ∀ offset p q, u = p ++ q → q ≠ [] → ∃ b, read ⟨offset, t ++ p⟩ = .ok b ∧
      CutOff (offset + t.length) u (offset + t.length + p.length) (next b)) :
    Detects (fun input => (read input).bind next) (t ++ u) := by
  intro offset p q parts cut
  dsimp only
  rcases cut_append parts with ⟨q', rest, inside⟩ | ⟨p', rfl, inside⟩
  · obtain ⟨e, failed, severed⟩ := h offset p q' inside rest
    rw [failed]
    exact .refused (severed.append apart)
  · obtain ⟨b, read, later⟩ := g offset p' q inside cut
    rw [read, List.length_append, ← Nat.add_assoc]
    exact later.after apart

/-- One text after another, the second of which is required. -/
theorem Detects.bind {read : Input → Except ParseError (α × Input)} (h : Detects read t)
    (next : α → Input → Except ParseError β) (apart : Apart t u)
    (takes : ∀ offset p q, u = p ++ q → q ≠ [] →
      ∃ a, read ⟨offset, t ++ p⟩ = .ok (a, ⟨offset + t.length, p⟩))
    (needs : ∀ a, Needs (next a)) (g : ∀ a, Refuses (next a) u) :
    Refuses (fun input => (read input).bind fun x => next x.1 x.2) (t ++ u) := by
  intro offset p q parts cut
  dsimp only
  rcases cut_append parts with ⟨q', rest, inside⟩ | ⟨p', rfl, inside⟩
  · have first := h offset p q' inside rest
    generalize read ⟨offset, p⟩ = result at first ⊢
    cases first with
    | refused severed => exact ⟨_, rfl, severed.append apart⟩
    | @spent a last none_left =>
      obtain ⟨e, failed, kind⟩ := needs a last.offset
      rw [← none_left] at failed
      exact ⟨e, failed, .of_endOfInput kind⟩
  · obtain ⟨a, read⟩ := takes offset p' q inside cut
    obtain ⟨e, failed, severed⟩ := g a (offset + t.length) p' q inside cut
    rw [read, List.length_append, ← Nat.add_assoc]
    exact ⟨e, failed, severed.after apart⟩

end

/-- The text of an item that is read in full where it ends, and whose cuts are seen. -/
structure Severable {α : Type} (item : Reader α) (t : List UInt8) (a : α) : Prop where
  leads : Reader.Leads t
  takes : item.Takes t a
  scans : ∃ ls, Scans t ls
  detects : Detects item.read t

namespace Reader

variable {α : Type} {item : Reader α} {close : UInt8} {t : List UInt8} {a : α} {as : List α}

theorem needs_separated (needs : Needs item.read) (close : UInt8) :
    Needs (separated item close).read := by
  intro offset
  rw [separated_read]
  exact (needs.gap.bind _) offset

theorem needs_items (needs : Needs item.read) (close : UInt8) (done : List α) :
    Needs (items item close done) := by
  intro offset
  obtain ⟨e, failed, kind⟩ := needs_separated needs close offset
  exact ⟨e, items_failed failed, kind⟩

theorem exists_scans_padded (h : Padded (Severable item) t a) : ∃ ls, Scans t ls := by
  obtain ⟨before, inner, after⟩ := h
  obtain ⟨ls, scans⟩ := inner.scans
  rw [List.append_assoc]
  exact ⟨ls, (silent_space before).before (scans.silent (silent_space after) (ends_space after))⟩

section

variable (closes : close = Byte.closeBracket ∨ close = Byte.closeBrace)
include closes

theorem separated_refuses (needs : Needs item.read) (h : Padded (Severable item) t a)
    (more : Bool) :
    Refuses (separated item close).read (t ++ [if more then Byte.comma else close]) := by
  obtain ⟨before, inner, after⟩ := h
  rename_i w u w'
  obtain ⟨leads, takes, ⟨ls, scans⟩, detects⟩ := inner
  have ends : Ends (w' ++ [if more then Byte.comma else close]) :=
    (ends_space after).append (by rintro _ ⟨⟩; exact endsNumber_separator closes more)
  have reading : (separated item close).read = _ := funext (separated_read item close)
  rw [reading, List.append_assoc (w ++ u)]
  refine (detects.gap needs leads before).bind
    (fun a input => (separator close input.skipWhitespace).bind fun q => .ok ((a, q.1), q.2))
    (((silent_space before).before scans).apart ends) ?takes ?needs ?refuses
  case takes =>
    intro offset p q parts cut
    have taken : (Input.mk offset (w ++ u ++ p)).Splits (w ++ u) ⟨offset + (w ++ u).length, p⟩ :=
      ⟨rfl, rfl⟩
    exact ⟨a, takes (taken.skipWhitespace before leads.stops)
      (ends_space (after.cut_byte parts cut))⟩
  case needs => exact fun a => ((needs_separator close).bind _).gap
  case refuses => exact fun a => ((needs_separator close).bind _).refuses_byte after _

/-- Each cut of the items is one of the first item or of those after it. -/
theorem items_refuses (needs : Needs item.read) (h : Separated (Padded (Severable item)) t as)
    (done : List α) : Refuses (items item close done) (t ++ [close]) := by
  have failed : ∀ {t a done} (more : Bool), Padded (Severable item) t a →
      Refuses (items item close done) (t ++ [if more then Byte.comma else close]) := by
    intro t a done more first offset p q parts cut
    obtain ⟨e, failed, severed⟩ := separated_refuses closes needs first more offset p q parts cut
    exact ⟨e, items_failed failed, severed⟩
  induction h generalizing done with
  | last first => exact failed false first
  | @more t u a as first others ih =>
    obtain ⟨ls, scans⟩ := exists_scans_padded first
    have comma : Silent [Byte.comma] := silent_byte (by decide) (by decide)
    have apart := scans.apart_byte comma (by decide)
    intro offset p q parts cut
    rw [List.append_assoc, List.cons_append, List.append_cons] at parts ⊢
    rcases cut_append parts with ⟨q', rest, inside⟩ | ⟨p', rfl, inside⟩
    · obtain ⟨e, failed, severed⟩ := failed true first offset p q' inside rest
      exact ⟨e, failed, severed.append (apart _)⟩
    · have taken : (Input.mk offset (t ++ [Byte.comma] ++ p')).Splits
        (t ++ [Byte.comma]) ⟨offset + (t ++ [Byte.comma]).length, p'⟩ := ⟨rfl, rfl⟩
      have item := first.mono (S := fun t a => Leads t ∧ item.Takes t a) fun _ inner =>
        ⟨inner.leads, inner.takes⟩
      obtain ⟨e, failed, severed⟩ := ih (a :: done) (offset + (t ++ [Byte.comma]).length) p' q
        inside cut
      have whole := severed.after (apart _)
      rw [items_more (separated_of_splits closes true item taken)]
      rw [Nat.add_assoc, ← List.length_append] at whole
      exact ⟨e, failed, whole⟩

/-- What follows the opening byte of a container. -/
theorem container_refuses (needs : Needs item.read) {first : UInt8} (opens : Silent [first])
    (h : Bracketed (Severable item) first close t as) {offset : Nat} {p q : List UInt8}
    (parts : t = first :: p ++ q) (cut : q ≠ []) :
    ∃ e, container item close ⟨offset + 1, p⟩ = .error e ∧
      Severed offset t (offset + (first :: p).length) e.kind := by
  have gone : ∀ p, Space p → ∃ e, container item close ⟨offset + 1, p⟩ = .error e ∧
      e.kind = .endOfInput := by
    intro p space
    simp only [container, skipWhitespace_space space]
    exact needs_items needs close [] _
  cases h with
  | empty space =>
    simp only [List.cons_append, List.cons.injEq, true_and] at parts
    obtain ⟨e, failed, kind⟩ := gone p (space.cut_byte parts cut)
    exact ⟨e, failed, .of_endOfInput kind⟩
  | items inside =>
    simp only [List.cons_append, List.cons.injEq, true_and] at parts
    obtain ⟨w, u, rfl, space, inner, v, b, u', related, same⟩ := inside.strip
    rw [List.append_assoc] at parts
    rcases cut_append parts with ⟨_, _, rfl⟩ | ⟨p', rfl, inside⟩
    · obtain ⟨e, failed, kind⟩ := gone p space.cut
      exact ⟨e, failed, .of_endOfInput kind⟩
    · have leads : Leads (p' ++ q) := by
        rw [← inside, same, List.append_assoc]
        exact related.leads.append _
      have other : p'.head? ≠ some close := by
        obtain ⟨c, hc, _, others⟩ := leads
        cases p' with
        | nil => simp
        | cons d p' =>
          cases hc
          rcases closes with rfl | rfl <;> simp [others]
      obtain ⟨e, failed, severed⟩ :=
        items_refuses closes needs inner [] (offset + 1 + w.length) p' q inside cut
      have apart := (opens.append (silent_space space)).apart (u ++ [close])
      refine ⟨e, ?_, ?_⟩
      · simpa only [container, skipWhitespace_cut space leads, if_neg other] using failed
      · have place : offset + 1 + w.length = offset + ([first] ++ w).length := by simp; omega
        rw [place] at severed
        simpa [Nat.add_assoc, Nat.add_comm 1] using severed.after apart

end

end Reader

namespace Document

section

variable {asText : Bool} {levels : Nat} {t u : List UInt8} {v : Value}

theorem needs_value (asText : Bool) (levels : Nat) : Needs (value asText levels).read := by
  intro offset
  obtain ⟨nested, reads⟩ := exists_nested asText levels
  exact ⟨_, reads _, rfl⟩

theorem needs_member (reader : Reader Value) : Needs (memberReader reader).read := by
  intro offset
  rw [member_read]
  exact ((needs_expect Byte.quote).bind _) offset

theorem exists_scans (h : ValueText asText t v) : ∃ ls, Scans t ls := by
  cases asText with
  | true => exact ⟨_, scans_value h⟩
  | false =>
    obtain ⟨w, kept, _⟩ := valueText_kept h
    exact ⟨_, scans_value kept⟩

theorem severable_value (h : ValueText asText t v) (depth : v.nesting ≤ levels)
    (detects : Detects (value asText levels).read t) : Severable (value asText levels) t v :=
  ⟨leads_value h, value_takes h levels depth, exists_scans h, detects⟩

/-- What a member reads after its key. -/
theorem colon_detects {reader : Reader Value} (needs : Needs reader.read)
    (h : Severable reader t v) {w w' : List UInt8} (before : Space w) (after : Space w')
    (key : String) :
    Detects (fun input => (Reader.expect Byte.colon input.skipWhitespace).bind fun rest =>
      (reader.read rest.skipWhitespace).bind fun v => .ok ((key, v.1), v.2))
      (w ++ [Byte.colon] ++ (w' ++ t)) := by
  have colon : Silent [Byte.colon] := silent_byte (by decide) (by decide)
  refine ((needs_expect Byte.colon).refuses_byte before Byte.colon).bind
    (((silent_space before).append colon).apart _) ?_
  intro offset p q parts cut
  have gap := skipWhitespace_cut (p := Byte.colon :: p) (q := []) before
    ⟨Byte.colon, rfl, by decide⟩ offset
  refine ⟨⟨offset + (w ++ [Byte.colon]).length, p⟩, ?_, ?_⟩
  · rw [List.append_assoc, List.singleton_append, gap, List.length_append]
    rfl
  · exact ((h.detects.gap needs h.leads after).map fun v => (key, v)) _ p q parts cut

theorem key_refuses {s : String} (h : StringText t s) :
    Refuses (fun input => (Reader.expect Byte.quote input).bind fun _ => Quoted.read input) t := by
  intro offset p q parts cut
  cases p with
  | nil =>
    obtain ⟨e, failed, kind⟩ :=
      (needs_expect Byte.quote).bind (fun _ => Quoted.read ⟨offset, []⟩) offset
    exact ⟨e, failed, .of_endOfInput kind⟩
  | cons b p =>
    obtain ⟨e, failed, kind⟩ := Quoted.read_cut h parts cut offset
    obtain ⟨_, _⟩ := h
    obtain ⟨rfl, _⟩ := List.cons.inj parts
    exact ⟨e, failed, .of_endOfInput kind⟩

theorem member_detects {reader : Reader Value} (needs : Needs reader.read) {m : String × Value}
    (h : MemberText (Severable reader) t m) : Detects (memberReader reader).read t := by
  obtain ⟨key, before, after, inner⟩ := h
  rename_i k w w' t name v
  have whole : k ++ w ++ Byte.colon :: w' ++ t = k ++ (w ++ [Byte.colon] ++ (w' ++ t)) := by simp
  have reading : (memberReader reader).read = fun input =>
      ((Reader.expect Byte.quote input).bind fun _ => Quoted.read input).bind fun k =>
        (Reader.expect Byte.colon k.2.skipWhitespace).bind fun rest =>
          (reader.read rest.skipWhitespace).bind fun v => .ok ((k.1, v.1), v.2) := by
    funext input
    rw [member_read]
    cases Reader.expect Byte.quote input <;> rfl
  rw [reading, whole]
  refine (key_refuses key).bind ((silent_string key).apart _) ?_
  intro offset p q parts cut
  have taken : (Input.mk offset (k ++ p)).Splits k ⟨offset + k.length, p⟩ := ⟨rfl, rfl⟩
  have read := Quoted.read_of_splits key taken
  refine ⟨(name, ⟨offset + k.length, p⟩), ?_,
    colon_detects needs inner before after name _ p q parts cut⟩
  obtain ⟨_, _⟩ := key
  exact read

theorem severable_member {reader : Reader Value} (needs : Needs reader.read) {m : String × Value}
    (h : MemberText (Severable reader) t m) : Severable (memberReader reader) t m := by
  have taken := h.mono (S := fun t v => Reader.Leads t ∧ reader.Takes t v)
    fun _ inner => ⟨inner.leads, inner.takes⟩
  refine ⟨leads_member h, member_takes taken, ?_, member_detects needs h⟩
  obtain ⟨key, before, after, inner⟩ := h
  rename_i v
  obtain ⟨ls, scans⟩ := inner.scans
  have member := MemberText.mk (R := fun t _ => Scans t ls) (v := v) key before after scans
  exact ⟨ls, scans_member (fun _ => id) member⟩

/-- A cut value: nothing of it is left, or its first byte is. -/
theorem value_detects_of_cons
    (h : ∀ offset b p q, t = b :: p ++ q → q ≠ [] → CutOff offset t (offset + (b :: p).length)
      ((value asText levels).read ⟨offset, b :: p⟩)) : Detects (value asText levels).read t := by
  intro offset p q parts cut
  cases p with
  | nil =>
    obtain ⟨e, failed, kind⟩ := needs_value asText levels offset
    rw [failed]
    exact .refused (.of_endOfInput kind)
  | cons b p => exact h offset b p q parts cut

theorem array_detects {below : Nat} {items : List Value}
    (h : Bracketed (Severable (value asText below)) Byte.openBracket Byte.closeBracket t items) :
    Detects (value asText (below + 1)).read t := by
  refine value_detects_of_cons fun offset b p q parts cut => ?_
  have opens : b = Byte.openBracket := by cases h <;> exact (List.cons.inj parts).1.symm
  subst opens
  obtain ⟨e, failed, severed⟩ := Reader.container_refuses (.inl rfl) (needs_value asText below)
    (silent_byte (by decide) (by decide)) h parts cut
  rw [value_read_array below rfl, array_read]
  change CutOff _ _ _ ((Reader.container _ _ ⟨offset + 1, p⟩).bind _)
  rw [failed]
  exact .refused severed

theorem object_detects {below : Nat} {members : List (String × Value)}
    (h : Bracketed (Severable (memberReader (value asText below))) Byte.openBrace Byte.closeBrace t
      members) : Detects (value asText (below + 1)).read t := by
  refine value_detects_of_cons fun offset b p q parts cut => ?_
  have opens : b = Byte.openBrace := by cases h <;> exact (List.cons.inj parts).1.symm
  subst opens
  obtain ⟨e, failed, severed⟩ := Reader.container_refuses (.inr rfl) (needs_member _)
    (silent_byte (by decide) (by decide)) h parts cut
  rw [value_read_object below rfl, object_read]
  change CutOff _ _ _ ((Reader.container _ _ ⟨offset + 1, p⟩).bind _)
  rw [failed]
  exact .refused severed

theorem string_detects {s : String} (text : StringText t s) (levels : Nat) :
    Detects (value asText levels).read t := by
  obtain ⟨nested, reads⟩ := exists_nested asText levels
  refine value_detects_of_cons fun offset b p q parts cut => ?_
  obtain ⟨e, failed, kind⟩ := Quoted.read_cut text parts cut offset
  obtain ⟨_, _⟩ := text
  obtain ⟨rfl, _⟩ := List.cons.inj parts
  have refused : valueOver asText nested ⟨offset, Byte.quote :: p⟩ = .error e := by
    change string _ = _
    rw [string_read, failed]
    rfl
  rw [reads, refused]
  exact .refused (.of_endOfInput kind)

theorem keyword_detects (word : KeywordText t v) (levels : Nat) :
    Detects (value asText levels).read t := by
  obtain ⟨nested, reads⟩ := exists_nested asText levels
  refine value_detects_of_cons fun offset b p q parts cut => ?_
  have reading : ∃ mismatch, valueOver asText nested ⟨offset, b :: p⟩ =
      keyword t v mismatch ⟨offset, b :: p⟩ := by
    cases word with
    | true => obtain ⟨rfl, _⟩ := List.cons.inj parts; exact ⟨.invalidBool, rfl⟩
    | false => obtain ⟨rfl, _⟩ := List.cons.inj parts; exact ⟨.invalidBool, rfl⟩
    | null => obtain ⟨rfl, _⟩ := List.cons.inj parts; exact ⟨.invalidNull, rfl⟩
  obtain ⟨mismatch, same⟩ := reading
  obtain ⟨e, failed, kind⟩ := keyword_cut parts cut v mismatch offset
  rw [reads, same, failed]
  exact .refused (kind ▸ .keyword)

theorem number_detects (text : NumberText asText t v) (levels : Nat) :
    Detects (value asText levels).read t := by
  refine value_detects_of_cons fun offset b p q parts cut => ?_
  obtain ⟨c, first, starts⟩ := text.starts
  rw [parts] at first
  cases first
  rw [value_read_number levels rfl starts]
  exact Number.read_cut text parts cut (List.cons_ne_nil _ _) offset

/-- Each value that the levels allow shows that it was cut, at every nesting. -/
theorem value_detects (h : ValueText asText t v) :
    ∀ levels, v.nesting ≤ levels → Detects (value asText levels).read t := by
  refine ValueText.induct (P := fun t v => ∀ levels, v.nesting ≤ levels →
    Detects (value asText levels).read t) ?array ?object ?string ?keyword ?number h
  case array =>
    intro t items inside levels deep
    obtain ⟨below, rfl, each⟩ := Value.nesting_array_le.1 deep
    exact array_detects (inside.mono fun _ v hv both =>
      severable_value both.1 (each v hv) (both.2 below (each v hv)))
  case object =>
    intro t members inside levels deep
    obtain ⟨below, rfl, each⟩ := Value.nesting_object_le.1 deep
    refine object_detects (inside.mono fun _ m hm member => ?_)
    exact severable_member (needs_value asText below) (member.mono fun _ both =>
      severable_value both.1 (each m hm) (both.2 below (each m hm)))
  case string =>
    intro t s text levels _
    exact string_detects text levels
  case keyword =>
    intro t v word levels _
    exact keyword_detects word levels
  case number =>
    intro t v text levels _
    exact number_detects text levels

end

theorem space_eq_nil {t w : List UInt8} (space : Space w)
    (closed : ∀ b ∈ (t ++ w).getLast?, Byte.isWhitespace b = false) : w = [] := by
  by_contra some_byte
  have last : (t ++ w).getLast? = some (w.getLast some_byte) := by
    rw [List.getLast?_append_of_ne_nil _ some_byte, List.getLast?_eq_some_getLast some_byte]
  have other := closed _ last
  rw [space _ (List.getLast_mem some_byte)] at other
  contradiction

/-- What is left of an accepted document is no document, or the whole would end with whitespace. -/
theorem parse_cut_fails {options : Options} {p q : List UInt8} {v w : Value}
    (accepted : parse (p ++ q) options = .ok v) (cut : q ≠ [])
    (closed : ∀ b ∈ (p ++ q).getLast?, Byte.isWhitespace b = false) : parse p options ≠ .ok w := by
  intro read
  obtain ⟨text, depth⟩ := parse_sound read
  have again := parse_append_of_document text depth q
  rw [accepted] at again
  split at again
  · rename_i none_left
    exact cut (space_eq_nil (List.dropWhile_eq_nil_iff.1 none_left) closed)
  · contradiction

theorem parse_space {options : Options} {p : List UInt8} {e : ParseError} (space : Space p)
    (failed : parse p options = .error e) : e.kind = .rootNotContainer := by
  rw [parse_read, Input.ofBytes, skipWhitespace_space space] at failed
  cases failed
  rfl

/-- A cut behind the first byte of the root is met inside the root. -/
theorem parse_cut_root {options : Options} {w t p q : List UInt8} {b : UInt8} {v : Value}
    {e : ParseError} (before : Space w) (inner : ContainerText options.numbersAsText t v)
    (depth : v.nesting ≤ options.maxDepth) (parts : t = b :: p ++ q) (cut : q ≠ [])
    (failed : parse (w ++ b :: p) options = .error e) :
    Severed 0 (w ++ t) (w ++ b :: p).length e.kind := by
  have value := value_of_container inner
  have inside := skipWhitespace_cut before (parts ▸ leads_value value) 0
  have opens := head_container inner
  rw [parts] at opens
  have atRoot : root options ⟨0 + w.length, b :: p⟩ = _ := if_pos opens
  have severed := value_detects value options.maxDepth depth (0 + w.length) (b :: p) q parts cut
  rw [parse_read, Input.ofBytes, inside, atRoot] at failed
  generalize (Document.value _ _).read ⟨0 + w.length, b :: p⟩ = result at severed failed
  cases severed with
  | refused severed =>
    cases failed
    have whole := severed.after ((silent_space before).apart t)
    rwa [List.length_append, ← Nat.zero_add (w.length + _), ← Nat.add_assoc]
  | @spent v rest none_left =>
    have last : rest.skipWhitespace.bytes = [] :=
      List.eq_nil_of_length_eq_zero (by have := rest.length_skipWhitespace_le; simp_all)
    simp [Except.bind, last] at failed

theorem parse_cut {options : Options} {p q : List UInt8} {v : Value}
    (accepted : parse (p ++ q) options = .ok v) (cut : q ≠ [])
    (closed : ∀ b ∈ (p ++ q).getLast?, Byte.isWhitespace b = false) :
    ∃ e, parse p options = .error e ∧
      (Severed 0 (p ++ q) p.length e.kind ∨ (e.kind = .rootNotContainer ∧ Space p)) := by
  obtain ⟨text, depth⟩ := parse_sound accepted
  cases read : parse p options with
  | ok w => exact absurd read (parse_cut_fails accepted cut closed)
  | error e =>
    refine ⟨e, rfl, ?_⟩
    have rootless : Space p → e.kind = .rootNotContainer ∧ Space p := fun space =>
      ⟨parse_space space read, space⟩
    generalize same : p ++ q = whole at text closed ⊢
    obtain ⟨before, inner, after⟩ := text
    cases space_eq_nil after closed
    rw [List.append_nil] at same ⊢
    rcases cut_append same.symm with ⟨_, _, rfl⟩ | ⟨p', rfl, parts⟩
    · exact .inr (rootless before.cut)
    · cases p' with
      | nil => exact .inr (rootless (by simpa using before))
      | cons b p' => exact .inl (parse_cut_root before inner depth parts cut read)

end Document

/-- An accepted document that ends with its root is refused wherever it is cut short, and for being
cut: at the end of what is left, or in a keyword that ends there. Only a cut inside a number can show a
malformed number, and only a cut before the root leaves none. -/
theorem parse_truncated {options : Options} {p q : List UInt8} {v : Value}
    (accepted : parse (p ++ q) options = .ok v) (cut : q ≠ [])
    (closed : ∀ b ∈ (p ++ q).getLast?, Byte.isWhitespace b = false) :
    ∃ e, parse p options = .error e ∧
      (e.kind = .endOfInput ∨ e.kind = .truncatedKeyword ∨ (e.kind = .rootNotContainer ∧ Space p) ∨
        ((e.kind = .invalidNumber ∨ e.kind = .invalidHex) ∧ CutsLiteral 0 (p ++ q) p.length)) := by
  obtain ⟨e, failed, severed | rootless⟩ := Document.parse_cut accepted cut closed
  · refine ⟨e, failed, ?_⟩
    generalize e.kind = kind at severed ⊢
    cases severed with
    | nothingLeft => exact .inl rfl
    | keyword => exact .inr (.inl rfl)
    | number number cuts => exact .inr (.inr (.inr ⟨number, cuts⟩))
  · exact ⟨e, failed, .inr (.inr (.inl rootless))⟩

/-- An exponent cut before its digits. -/
theorem parse_truncated_exponent :
    parse (Utf8.ofString "[1e5]") = .ok (.array [.int 100000]) ∧
      ∃ e, parse (Utf8.ofString "[1e") = .error e ∧
        (e.kind = .endOfInput ∨ e.kind = .truncatedKeyword ∨
          (e.kind = .rootNotContainer ∧ Space (Utf8.ofString "[1e")) ∨
          ((e.kind = .invalidNumber ∨ e.kind = .invalidHex) ∧
            CutsLiteral 0 (Utf8.ofString "[1e5]") 3)) := by
  have number : NumberText false (Utf8.ofString "1e5") (.int 100000) := Number.numberText_iff.2 rfl
  have inside : Bracketed (ValueText false) Byte.openBracket Byte.closeBracket
      (Utf8.ofString "[1e5]") [.int 100000] := .items (.last (.of (ValueText.number number)))
  have text : DocumentText false (Utf8.ofString "[1e5]") (.array [.int 100000]) := Padded.of inside
  have read : parse (Utf8.ofString "[1e5]") = .ok (.array [.int 100000]) :=
    Document.parse_of_document text (by decide)
  have last : (Utf8.ofString "[1e5]").getLast? = some Byte.closeBracket := by decide
  refine ⟨read, parse_truncated (p := Utf8.ofString "[1e") (q := Utf8.ofString "5]") read (by decide)
    fun b hb => ?_⟩
  obtain rfl : Byte.closeBracket = b := Option.some.inj (last.symm.trans hb)
  decide

end JsonTree
