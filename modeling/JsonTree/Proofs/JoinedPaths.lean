import JsonTree.Proofs.CompiledPaths

/-!
Paths joined end to end. Where the second path does not go on with the last token of the first, the
joined path leads where the second leads from the node that the first leads to, and each path takes
its own arguments.
-/
namespace JsonTree

namespace Path

/-- The first segment of a path is that of every longer path, as long as the token ends where it
did. -/
theorem Segment.split?_append {path later more : List UInt8} {s : Segment}
    (h : split? path = some (s, later)) (follows : Follows more) :
    split? (path ++ more) = some (s, later ++ more) := by
  cases path with
  | nil => contradiction
  | cons b rest =>
    obtain ⟨opener, token, closer⟩ := split?_eq_some_iff.1 h
    obtain ⟨inside, after, rfl, run, stop⟩ := Byte.exists_run (!isBoundary ·) rest
    rw [Byte.takeWhile_run run stop] at token
    rw [Byte.dropWhile_run run stop] at closer
    -- The token ends at the byte that ended it, or at the first of the bytes added.
    have longer : ∀ b ∈ (after ++ more).head?, (!isBoundary b) = false := by
      cases after with
      | nil => simpa [Follows] using follows
      | cons c after => exact stop
    obtain ⟨closing, rfl, same⟩ := List.dropPrefix?_eq_some_iff.1 closer
    rw [List.cons_append, List.append_assoc]
    apply split?_eq_some_iff.2
    rw [Byte.takeWhile_run run longer, Byte.dropWhile_run run longer, List.append_assoc]
    exact ⟨opener, token, List.dropPrefix?_append_of_beq (later ++ more) same⟩

theorem Segment.fill?_append {s : Segment} {args left : List Argument} {m : Move}
    (h : s.fill? args = some (m, left)) (more : List Argument) :
    s.fill? (args ++ more) = some (m, left ++ more) := by
  unfold fill? at h ⊢
  by_cases wildcard : Byte.star ∈ s.token
  · rw [if_pos wildcard] at h ⊢
    cases args with
    | nil => contradiction
    | cons a args =>
      simp only [List.cons_append] at h ⊢
      by_cases right : a.step = s.step
      · rw [if_pos right] at h ⊢
        cases h
        rfl
      · rw [if_neg right] at h
        contradiction
  · rw [if_neg wildcard] at h ⊢
    cases h
    rfl

theorem evaluate_append {p q : List UInt8} {as bs : List Argument} {root n : Value}
    (found : evaluate p as root = some n) (follows : Follows q) :
    evaluate (p ++ q) (as ++ bs) root = evaluate q bs n := by
  induction p using segments?.induct generalizing as root with
  | case1 =>
    cases as with
    | nil =>
      simp only [evaluate, List.isEmpty_nil, if_true, Option.some.injEq] at found
      rw [found]
      rfl
    | cons a as => simp [evaluate] at found
  | case2 b rest stuck =>
    rw [evaluate_of_split?_eq_none (by simp) stuck] at found
    contradiction
  | case3 b rest s later first ih =>
    -- The first step is the same one, and the rest of the path is joined in its place.
    rw [evaluate_of_split? first, Option.bind_eq_some_iff] at found
    obtain ⟨⟨m, left⟩, filled, moved⟩ := found
    rw [evaluate_of_split? (Segment.split?_append first follows), Segment.fill?_append filled bs,
      Option.bind_some]
    simp only at moved ⊢
    split at moved
    · rename_i fits
      obtain ⟨child, target, others⟩ := Option.bind_eq_some_iff.1 moved
      rw [if_pos fits, target, Option.bind_some]
      exact ih others
    · contradiction

theorem follows_ofString {q : String} (h : ∀ c ∈ q.toList.head?, c ∈ ['.', '[', ':', ']']) :
    Follows (Utf8.ofString q) := by
  unfold Utf8.ofString
  cases same : q.toList with
  | nil => simp [Follows, Utf8.ofChars]
  | cons c rest =>
    have first : c ∈ ['.', '[', ':', ']'] := h c (by rw [same]; rfl)
    have opens : ∀ c ∈ ['.', '[', ':', ']'], ∀ b ∈ (String.utf8EncodeChar c).head?, isBoundary b := by
      simp only [List.forall_mem_cons]
      refine ⟨?_, ?_, ?_, ?_, List.forall_mem_nil _⟩ <;> rintro b ⟨⟩ <;> rfl
    have some_byte : String.utf8EncodeChar c ≠ [] := by simp
    intro b hb
    rw [Utf8.ofChars_cons, List.head?_append_of_ne_nil _ some_byte] at hb
    exact opens c first b hb

end Path

/-- A path that leads to a node can be continued from there: the joined path, with the arguments of
both, leads where the second path leads from the node with its own arguments, and nowhere if that
leads nowhere. -/
theorem Value.select?_append {root n : Value} {p q : String} {as bs : List Argument}
    (found : root.select? p as = some n)
    (follows : ∀ c ∈ q.toList.head?, c ∈ ['.', '[', ':', ']']) :
    root.select? (p ++ q) (as ++ bs) = n.select? q bs := by
  have joined : Utf8.ofString (p ++ q) = Utf8.ofString p ++ Utf8.ofString q := by
    rw [Utf8.ofString, String.toList_append, Utf8.ofChars_append]
    rfl
  rw [select?, joined]
  exact Path.evaluate_append found (Path.follows_ofString follows)

theorem Value.select?_of_compile? {root : Value} {path : String} {args : List Argument}
    {moves : List Path.Move} (h : Path.compile? (Utf8.ofString path) args = some moves) :
    root.select? path args = Path.run moves root := by
  rw [select?, Path.evaluate_eq_compiled, h, Option.bind_some]

/-- Each path takes an argument of its own, and a bracket that closes nothing leads nowhere. -/
theorem Value.select?_append_wildcards :
    (Value.object [("a*", .object [(".b", .bool true)])]).select? (".*" ++ ".*:b")
        ([.key "a*"] ++ [.key ".b"]) = some (.bool true) ∧
      (Value.object [("a*", .object [(".b", .bool true)])]).select? (".*" ++ "]")
        ([.key "a*"] ++ []) = none := by
  have compiled : Path.compile? (Utf8.ofString ".*") [.key "a*"] =
      some [⟨.key, Utf8.ofString "a*"⟩] := by cbv
  have found : (Value.object [("a*", .object [(".b", .bool true)])]).select? ".*" [.key "a*"] =
      some (.object [(".b", .bool true)]) := select?_of_compile? compiled
  constructor
  · have later : Path.compile? (Utf8.ofString ".*:b") [.key ".b"] =
        some [⟨.key, Utf8.ofString ".b"⟩, ⟨.typeCheck, [0x62]⟩] := by cbv
    rw [select?_append found (by simp)]
    exact select?_of_compile? later
  · have stuck : Path.Segment.split? (Utf8.ofString "]") = none := rfl
    rw [select?_append found (by simp), select?]
    exact Path.evaluate_of_split?_eq_none (by decide) stuck

end JsonTree
