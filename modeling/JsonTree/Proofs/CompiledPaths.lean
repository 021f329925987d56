import JsonTree.Proofs.Amounts
import JsonTree.Proofs.Integers
import JsonTree.Proofs.Segments

/-!
Selecting in two phases. A path is compiled as a whole, with the arguments it takes, to the moves it
asks for, and the moves are then made one after another. To follow a path while it is read comes to
the same, as what goes wrong in either phase stops both.
-/
namespace JsonTree

/-- The letters of the checks that values of a kind pass. -/
def Kind.letters : Kind → List Char
  | string => ['s']
  | int => ['i', 'n']
  | float => ['f', 'n']
  | literal => ['n']
  | object => ['o']
  | array => ['a']
  | bool => ['b']
  | null => ['!']

theorem Kind.isNamedBy_iff {kind : Kind} {b : UInt8} :
    kind.isNamedBy b ↔ b ∈ kind.letters.map Char.toUInt8 := by
  revert b
  cases kind <;> decide +kernel

namespace Argument

/-- The segments that an argument is for. None is for a type check. -/
def step : Argument → Path.Step
  | index _ => .index
  | key _ => .key

/-- A key as it is and an index in decimal. -/
def text : Argument → List UInt8
  | index n => Utf8.ofString (toString n)
  | key k => Utf8.ofString k

end Argument

namespace Path

/-- A step with its token as it is compared. -/
structure Move where
  step : Step
  token : List UInt8

namespace Move

def Fits (m : Move) : Prop := 1 ≤ m.token.length ∧ m.token.length ≤ 256

instance : DecidablePred Fits := fun _ => inferInstanceAs (Decidable (_ ∧ _))

/-- Where a move leads from a value. -/
def target? (m : Move) (v : Value) : Option Value :=
  match m.step, v with
  | .key, .object members =>
    (members.find? fun (name, _) => Utf8.ofString name = m.token).map fun (_, member) => member
  | .index, .array items =>
    if (∀ b ∈ m.token, Byte.isDigit b) ∧ positional 10 m.token < 2 ^ 64 then
      items[positional 10 m.token]?
    else none
  | .typeCheck, v => if m.token ∈ v.kind.letters.map fun c => [c.toUInt8] then some v else none
  | _, _ => none

end Move

/-- The move of a segment, and the arguments that are left. A wildcard takes the first argument. -/
def Segment.fill? (s : Segment) (args : List Argument) : Option (Move × List Argument) :=
  if Byte.star ∈ s.token then
    match args with
    | [] => none
    | a :: args =>
      if a.step = s.step then
        some (⟨s.step, s.token.flatMap fun b => if b = Byte.star then a.text else [b]⟩, args)
      else none
  else some (⟨s.step, s.token⟩, args)

/-- The moves of segments, which have to take all the arguments. -/
def fillAll? : List Segment → List Argument → Option (List Move)
  | [], args => if args = [] then some [] else none
  | s :: segments, args => do
    let (m, args) ← s.fill? args
    let moves ← fillAll? segments args
    some (m :: moves)

/-- The moves that a path asks for under arguments. -/
def compile? (path : List UInt8) (args : List Argument) : Option (List Move) := do
  let segments ← segments? path
  let moves ← fillAll? segments args
  if ∀ m ∈ moves, m.Fits then some moves else none

def run (moves : List Move) (root : Value) : Option Value :=
  moves.foldlM (fun v m => m.target? v) root

/-! ### Wildcards -/

theorem ofString_toString (n : Int64) :
    Utf8.ofString (toString n) = Utf8.ofChars (Integer.text n.toInt) := by
  have text : (Int.repr n.toInt).toList = Integer.text n.toInt := by
    rw [Int.repr_eq_if, Integer.text]
    by_cases negative : n.toInt < 0
    · have magnitude : (-n.toInt).toNat = n.toInt.natAbs := by omega
      rw [if_neg (by omega), if_pos negative, magnitude, String.toList_append, Nat.toList_repr]
      rfl
    · have magnitude : n.toInt.toNat = n.toInt.natAbs := by omega
      rw [if_pos (by omega), if_neg negative, magnitude, Nat.toList_repr]
  exact congrArg Utf8.ofChars text

theorem Step.argumentText?_eq (step : Step) (a : Argument) :
    step.argumentText? a = if a.step = step then some a.text else none := by
  cases a with
  | index n => cases step <;> simp [argumentText?, Argument.step, Argument.text, ofString_toString]
  | key k => cases step <;> simp [argumentText?, Argument.step, Argument.text]

theorem ne_star_of_plain {bytes : List UInt8} (plain : Byte.star ∉ bytes) :
    ∀ b ∈ bytes, (b != Byte.star) = true := by
  intro b hb
  simpa using ne_of_mem_of_not_mem hb plain

/-- A token is plain, or it has a first wildcard. -/
theorem exists_wildcard (raw : List UInt8) : Byte.star ∉ raw ∨
    ∃ before after, raw = before ++ Byte.star :: after ∧ Byte.star ∉ before := by
  by_cases wildcard : Byte.star ∈ raw
  · obtain ⟨before, after, same, first⟩ := List.eq_append_cons_of_mem wildcard
    exact .inr ⟨before, after, same, first⟩
  · exact .inl wildcard

theorem count_wildcard {before after : List UInt8} (first : Byte.star ∉ before) :
    (before ++ Byte.star :: after).count Byte.star ≤ 1 ↔ Byte.star ∉ after := by
  rw [List.count_append, List.count_cons_self, List.count_eq_zero.2 first, ← List.count_eq_zero]
  omega

namespace Step

variable {step : Step} {before after raw : List UInt8} {args : List Argument}

theorem token?_plain (plain : Byte.star ∉ raw) : step.token? raw args = some (raw, args) := by
  have none_left : raw.dropWhile (· != Byte.star) = [] :=
    List.dropWhile_eq_nil_iff.2 (ne_star_of_plain plain)
  rw [token?, none_left]

theorem token?_wildcard (first : Byte.star ∉ before) :
    step.token? (before ++ Byte.star :: after) args =
      if Byte.star ∈ after then none else match args with
        | [] => none
        | a :: args =>
          if a.step = step then some (before ++ a.text ++ after, args) else none := by
  have others := ne_star_of_plain first
  have stop : ∀ b ∈ (Byte.star :: after).head?, (b != Byte.star) = false := by simp
  rw [token?, Byte.dropWhile_run others stop, Byte.takeWhile_run others stop]
  cases args with
  | nil => simp
  | cons a args =>
    by_cases right : a.step = step <;> simp [argumentText?_eq, right]

theorem token?_wildcards (several : ¬raw.count Byte.star ≤ 1) : step.token? raw args = none := by
  obtain plain | ⟨before, after, rfl, first⟩ := exists_wildcard raw
  · have none_at_all := List.count_eq_zero.2 plain
    omega
  · have another : Byte.star ∈ after := not_not.1 (mt (count_wildcard first).2 several)
    rw [token?_wildcard first, if_pos another]

end Step

theorem flatMap_plain {bytes text : List UInt8} (plain : Byte.star ∉ bytes) :
    (bytes.flatMap fun b => if b = Byte.star then text else [b]) = bytes := by
  induction bytes with
  | nil => rfl
  | cons b rest ih =>
    obtain ⟨other, later⟩ := List.ne_and_not_mem_of_not_mem_cons plain
    simp [Ne.symm other, ih later]

theorem Segment.token?_eq (s : Segment) (args : List Argument) :
    s.step.token? s.token args = (s.fill? args).map fun (m, args) => (m.token, args) := by
  unfold fill?
  obtain plain | ⟨before, after, same, first⟩ := exists_wildcard s.token
  · rw [Step.token?_plain plain, if_neg plain]
    rfl
  · have last : Byte.star ∉ after := (count_wildcard first).1 (same ▸ s.wildcard)
    rw [same, Step.token?_wildcard first, if_neg last, if_pos (by simp)]
    cases args with
    | nil => rfl
    | cons a args =>
      by_cases right : a.step = s.step
      · simp [right, flatMap_plain first, flatMap_plain last]
      · simp [right]

theorem Segment.step_of_fill? {s : Segment} {args later : List Argument} {m : Move}
    (h : s.fill? args = some (m, later)) : m.step = s.step := by
  unfold fill? at h
  split at h
  · split at h
    · contradiction
    · split at h
      · cases h
        rfl
      · contradiction
  · cases h
    rfl

/-! ### Moves -/

theorem index?_eq {token : List UInt8} (some_byte : token ≠ []) : index? token =
    if (∀ b ∈ token, Byte.isDigit b) ∧ positional 10 token < 2 ^ 64 then
      some (positional 10 token) else none := by
  by_cases all : ∀ b ∈ token, Byte.isDigit b
  · have zero : Integer.unsigned.contains 0 := by decide
    have unsigned : Integer.read Integer.unsigned (Sign.none.text ++ token) =
        if Integer.unsigned.contains (Sign.none.apply (decimalValue token)) then
          .ok (Sign.none.apply (decimalValue token))
        else .error .overflow := Integer.read_digits zero some_byte all
    have value : Integer.read Integer.unsigned token =
        if Integer.unsigned.contains (positional 10 token) then .ok (positional 10 token : Int)
        else .error .overflow := decimalValue_eq all ▸ unsigned
    rw [index?, if_pos (List.all_eq_true.2 all), value]
    by_cases small : positional 10 token < 2 ^ 64
    · rw [if_pos (Integer.unsigned_contains.2 small), if_pos ⟨all, small⟩]
      rfl
    · rw [if_neg (mt Integer.unsigned_contains.1 small), if_neg fun h => small h.2]
  · rw [index?, if_neg (mt List.all_eq_true.1 all), if_neg fun h => all h.1]

theorem Move.Fits.follow?_eq {m : Move} (fits : m.Fits) (v : Value) :
    m.step.follow? m.token v = m.target? v := by
  have some_byte : m.token ≠ [] := List.ne_nil_of_length_pos fits.1
  unfold target?
  cases m.step with
  | key => cases v <;> simp [Step.follow?, Value.member?, Value.members?, beq_eq_decide]
  | index =>
    cases v with
    | array items =>
      simp only [Step.follow?, index?_eq some_byte]
      split <;> rfl
    | _ => simp [Step.follow?, Value.at?, Value.items?]
  | typeCheck =>
    simp only [Step.follow?]
    split
    · rename_i b same
      simp [same, Kind.isNamedBy_iff]
    · rename_i longer
      refine (if_neg ?_).symm
      intro single
      obtain ⟨c, -, same⟩ := List.mem_map.1 single
      exact longer _ same.symm

theorem Move.fits_iff {m : Move} :
    m.Fits ↔ ¬(m.token.isEmpty || m.token.length > longestToken) = true := by
  simp [Fits, longestToken, Nat.one_le_iff_ne_zero]

/-! ### Paths -/

theorem dropPrefix?_closer (step : Step) (after : List UInt8) : after.dropPrefix? step.closer =
    if step = .index && after.head? != some Byte.closeBracket then none
    else some (if step = .index then after.drop 1 else after) := by
  cases step with
  | index =>
    cases after with
    | nil => rfl
    | cons b rest =>
      by_cases closes : b = Byte.closeBracket <;> simp [Step.closer, List.dropPrefix?, closes]
  | key => simp [Step.closer]
  | typeCheck => simp [Step.closer]

/-- Nothing is selected where no segment starts. -/
theorem evaluate_of_split?_eq_none {path : List UInt8} {args : List Argument} {v : Value}
    (some_byte : path ≠ []) (h : Segment.split? path = none) : evaluate path args v = none := by
  obtain ⟨b, rest, rfl⟩ := List.exists_cons_of_ne_nil some_byte
  rw [evaluate]
  rw [Segment.split?] at h
  cases opener : Step.ofByte? b with
  | none => rfl
  | some step =>
    by_cases wildcard : (rest.takeWhile (!isBoundary ·)).count Byte.star ≤ 1
    · simp only [opener, dif_pos wildcard, Option.bind_eq_bind, Option.bind_some,
        dropPrefix?_closer] at h
      split at h
      · rename_i unclosed
        simp only [if_pos unclosed]
        split <;> rfl
      · contradiction
    · simp only [Step.token?_wildcards wildcard]

/-- Following a path makes the move of its first segment and then follows the rest. -/
theorem evaluate_of_split? {path later : List UInt8} {s : Segment}
    (h : Segment.split? path = some (s, later)) (args : List Argument) (v : Value) :
    evaluate path args v = (s.fill? args).bind fun (m, args) =>
      if m.Fits then (m.target? v).bind (evaluate later args) else none := by
  cases path with
  | nil => contradiction
  | cons b rest =>
    obtain ⟨opener, token, closer⟩ := Segment.split?_eq_some_iff.1 h
    rw [dropPrefix?_closer] at closer
    split at closer
    · contradiction
    · rename_i closed
      simp only [evaluate, opener, token, s.token?_eq, if_neg closed, Option.some.inj closer]
      cases filled : s.fill? args with
      | none => rfl
      | some next =>
        obtain ⟨m, args⟩ := next
        simp only [Option.map_some, Option.bind_some]
        by_cases fits : m.Fits
        · have follows := fits.follow?_eq v
          rw [Segment.step_of_fill? filled] at follows
          rw [if_pos fits, if_neg (Move.fits_iff.1 fits), follows]
          cases m.target? v <;> rfl
        · rw [if_neg fits, if_pos (not_not.1 (mt Move.fits_iff.2 fits))]

theorem compile?_of_split?_eq_none {path : List UInt8} {args : List Argument}
    (some_byte : path ≠ []) (h : Segment.split? path = none) : compile? path args = none := by
  rw [compile?, segments?_eq_bind some_byte, h]
  rfl

theorem compile?_of_split? {path later : List UInt8} {s : Segment}
    (h : Segment.split? path = some (s, later)) (args : List Argument) :
    compile? path args = (s.fill? args).bind fun (m, args) =>
      if m.Fits then (compile? later args).map (m :: ·) else none := by
  have some_byte : path ≠ [] := by
    rintro rfl
    contradiction
  unfold compile?
  rw [segments?_eq_bind some_byte, h]
  cases filled : s.fill? args with
  | none => simp [fillAll?, filled]
  | some next =>
    obtain ⟨m, args⟩ := next
    simp only [Option.bind_eq_bind, Option.bind_some]
    cases segments? later with
    | none => by_cases fits : m.Fits <;> simp [fits]
    | some segments =>
      simp only [fillAll?, filled, Option.map_some, Option.bind_eq_bind, Option.bind_some]
      cases fillAll? segments args with
      | none => by_cases fits : m.Fits <;> simp [fits]
      | some moves =>
        by_cases fits : m.Fits <;> by_cases all : ∀ m ∈ moves, m.Fits <;> simp [fits, all]

theorem run_cons (m : Move) (moves : List Move) (v : Value) :
    run (m :: moves) v = (m.target? v).bind (run moves) := List.foldlM_cons

theorem evaluate_eq_compiled (path : List UInt8) (args : List Argument) (v : Value) :
    evaluate path args v = (compile? path args).bind fun moves => run moves v := by
  induction path using segments?.induct generalizing args v with
  | case1 =>
    cases args with
    | nil => simp [evaluate, compile?, segments?, fillAll?, run]
    | cons a args => simp [evaluate, compile?, segments?, fillAll?]
  | case2 b rest stuck =>
    rw [evaluate_of_split?_eq_none (by simp) stuck, compile?_of_split?_eq_none (by simp) stuck]
    rfl
  | case3 b rest s later first ih =>
    rw [evaluate_of_split? first, compile?_of_split? first]
    cases s.fill? args with
    | none => rfl
    | some next =>
      obtain ⟨m, args⟩ := next
      by_cases fits : m.Fits
      · -- A miss of this move and a failure to compile the rest stop both ways alike.
        simp only [if_pos fits, Option.bind_some, Option.bind_map, Function.comp_def, run_cons]
        rw [← Option.bind_comm]
        exact congrArg _ (funext fun child => ih args child)
      · simp [fits]

end Path

/-- Selecting is compiling the path and making its moves from the root. The path compiles by the
segments that spell it, and the empty path leads to the root itself. -/
theorem Value.select?_eq_compiled (root : Value) (path : String) (args : List Argument) :
    (∀ segments, Path.segments? (Utf8.ofString path) = some segments ↔
      segments.flatMap Path.Segment.text = Utf8.ofString path) ∧
    root.select? path args =
      (Path.compile? (Utf8.ofString path) args).bind (fun moves => Path.run moves root) ∧
    root.select? "" [] = some root := by
  refine ⟨?_, ?_, ?_⟩
  · intro segments
    exact Path.segments?_eq_some_iff
  · exact Path.evaluate_eq_compiled (Utf8.ofString path) args root
  · simp [select?, Path.evaluate, Utf8.ofString, Utf8.ofChars]

/-- A key is taken as it is, also where it looks like a path. -/
example : Path.compile? (Utf8.ofString ".*[07]:n") [.key "a.*"] =
    some [⟨.key, [0x61, 0x2E, 0x2A]⟩, ⟨.index, [0x30, 0x37]⟩, ⟨.typeCheck, [0x6E]⟩] := by
  cbv

end JsonTree
