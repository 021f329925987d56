import JsonTree.Path
import JsonTree.Proofs.Bytes
import Mathlib.Data.List.Basic

/-!
Paths as lists of segments. A path splits into the segments that spell it and into no others.
-/
namespace JsonTree.Path

namespace Step

/-- The byte that a segment starts with. -/
def opener : Step → UInt8
  | key => Byte.point
  | index => Byte.openBracket
  | typeCheck => Byte.colon

/-- What has to follow the token. -/
def closer : Step → List UInt8
  | index => [Byte.closeBracket]
  | _ => []

theorem ofByte?_eq_some_iff {b : UInt8} {step : Step} : ofByte? b = some step ↔ b = step.opener := by
  revert b
  cases step <;> decide +kernel

theorem isBoundary_opener (step : Step) : isBoundary step.opener := by
  cases step <;> rfl

end Step

/-- A step with its token as the path has it. -/
structure Segment where
  step : Step
  token : List UInt8
  inner : ∀ b ∈ token, isBoundary b = false
  wildcard : token.count Byte.star ≤ 1

namespace Segment

def text (s : Segment) : List UInt8 := s.step.opener :: s.token ++ s.step.closer

/-- The segment that a path starts with, and the path from there. -/
def split? : List UInt8 → Option (Segment × List UInt8)
  | [] => none
  | b :: rest =>
    let token := rest.takeWhile (!isBoundary ·)
    have inner : ∀ b ∈ token, isBoundary b = false := fun b hb => by
      simpa using List.mem_takeWhile_imp hb
    if wildcard : token.count Byte.star ≤ 1 then do
      let step ← Step.ofByte? b
      let later ← (rest.dropWhile (!isBoundary ·)).dropPrefix? step.closer
      some (⟨step, token, inner, wildcard⟩, later)
    else none

theorem split?_eq_some_iff {b : UInt8} {rest later : List UInt8} {s : Segment} :
    split? (b :: rest) = some (s, later) ↔ Step.ofByte? b = some s.step ∧
      rest.takeWhile (!isBoundary ·) = s.token ∧
        (rest.dropWhile (!isBoundary ·)).dropPrefix? s.step.closer = some later := by
  constructor
  · intro h
    rw [split?] at h
    split at h
    · simp only [Option.bind_eq_bind, Option.bind_eq_some_iff, Option.some.injEq,
        Prod.mk.injEq] at h
      obtain ⟨step, opener, _, closer, rfl, rfl⟩ := h
      exact ⟨opener, rfl, closer⟩
    · contradiction
  · rintro ⟨opener, token, closer⟩
    simp [split?, opener, closer, token, s.wildcard]

theorem text_of_split? {path later : List UInt8} {s : Segment} (h : split? path = some (s, later)) :
    path = s.text ++ later := by
  cases path with
  | nil => contradiction
  | cons b rest =>
    obtain ⟨opener, token, closer⟩ := split?_eq_some_iff.1 h
    obtain ⟨closing, after, same⟩ := List.dropPrefix?_eq_some_iff.1 closer
    rw [eq_of_beq same] at after
    rw [text, ← Step.ofByte?_eq_some_iff.1 opener, ← token, List.append_assoc, ← after,
      List.cons_append, List.takeWhile_append_dropWhile]

theorem length_of_split?_lt {path later : List UInt8} {s : Segment}
    (h : split? path = some (s, later)) : later.length < path.length := by
  rw [text_of_split? h, text]
  simp only [List.length_append, List.length_cons]
  omega

end Segment

/-- A path that does not go on with the token before it. -/
def Follows (path : List UInt8) : Prop := ∀ b ∈ path.head?, isBoundary b

theorem Segment.split?_text (s : Segment) {later : List UInt8} (follows : Follows later) :
    split? (s.text ++ later) = some (s, later) := by
  have stop : ∀ b ∈ (s.step.closer ++ later).head?, (!isBoundary b) = false := by
    cases same : s.step with
    | index => simp [Step.closer, isBoundary]
    | key => simpa [Step.closer, Follows] using follows
    | typeCheck => simpa [Step.closer, Follows] using follows
  have run : ∀ b ∈ s.token, (!isBoundary b) = true := by simpa using s.inner
  rw [text, List.append_assoc, List.cons_append]
  apply split?_eq_some_iff.2
  rw [Byte.takeWhile_run run stop, Byte.dropWhile_run run stop]
  exact ⟨Step.ofByte?_eq_some_iff.2 rfl, rfl, List.dropPrefix?_append_of_beq later (beq_self_eq_true _)⟩

/-- The segments of a path. -/
def segments? (path : List UInt8) : Option (List Segment) :=
  match path with
  | [] => some []
  | b :: rest =>
    match _ : Segment.split? (b :: rest) with
    | none => none
    | some (s, later) => (segments? later).map (s :: ·)
termination_by path.length
decreasing_by exact Segment.length_of_split?_lt ‹_›

theorem segments?_eq_bind {path : List UInt8} (some_byte : path ≠ []) :
    segments? path = (Segment.split? path).bind fun (s, later) => (segments? later).map (s :: ·) := by
  obtain ⟨b, rest, rfl⟩ := List.exists_cons_of_ne_nil some_byte
  rw [segments?]
  split <;> simp [*]

theorem follows_text (segments : List Segment) : Follows (segments.flatMap Segment.text) := by
  cases segments with
  | nil => simp [Follows]
  | cons s later => simpa [Follows, Segment.text] using s.step.isBoundary_opener

theorem segments?_text (segments : List Segment) :
    segments? (segments.flatMap Segment.text) = some segments := by
  induction segments with
  | nil => simp [segments?]
  | cons s later ih =>
    have first := s.split?_text (follows_text later)
    have some_byte : s.text ++ later.flatMap Segment.text ≠ [] := by simp [Segment.text]
    simp [segments?_eq_bind some_byte, first, ih]

theorem text_of_segments? {path : List UInt8} {segments : List Segment}
    (h : segments? path = some segments) : segments.flatMap Segment.text = path := by
  induction path using segments?.induct generalizing segments with
  | case1 =>
    rw [segments?, Option.some.injEq] at h
    rw [← h]
    rfl
  | case2 b rest stuck =>
    rw [segments?_eq_bind (by simp), stuck] at h
    contradiction
  | case3 b rest s later first ih =>
    rw [segments?_eq_bind (by simp), first, Option.bind_some, Option.map_eq_some_iff] at h
    obtain ⟨others, spelled, rfl⟩ := h
    rw [List.flatMap_cons, ih spelled, ← Segment.text_of_split? first]

/-- Segments are those of a path when they spell it. -/
theorem segments?_eq_some_iff {path : List UInt8} {segments : List Segment} :
    segments? path = some segments ↔ segments.flatMap Segment.text = path := by
  constructor
  · exact text_of_segments?
  · rintro rfl
    exact segments?_text segments

end JsonTree.Path
