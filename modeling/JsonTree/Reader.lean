import JsonTree.Byte
import JsonTree.Input

/-!
Readers of a piece of the input. A reader that succeeds takes at least one byte, which is what ends
the loop over the items of a container.
-/
namespace JsonTree

structure Reader (α : Type) where
  read : Input → Except ParseError (α × Input)
  progress : ∀ {input a rest}, read input = .ok (a, rest) → rest.bytes.length < input.bytes.length

namespace Reader

variable {α : Type}

/-- Takes a byte that has to come next. -/
def expect (b : UInt8) (input : Input) : Except ParseError Input :=
  match input.bytes with
  | [] => .error (input.fail .endOfInput)
  | c :: _ => if c = b then .ok (input.skip 1) else .error (input.fail .unexpectedByte)

/-- Takes what follows an item: whether that is a comma, or else the closing byte. -/
def separator (close : UInt8) (input : Input) : Except ParseError (Bool × Input) :=
  match input.bytes with
  | [] => .error (input.fail .endOfInput)
  | b :: _ =>
    if b = Byte.comma then .ok (true, input.skip 1)
    else if b = close then .ok (false, input.skip 1)
    else .error (input.fail .unexpectedByte)

theorem length_expect_lt {b : UInt8} {input rest : Input} (h : expect b input = .ok rest) :
    rest.bytes.length < input.bytes.length := by
  unfold expect at h
  split at h
  · contradiction
  · rename_i c more left
    split at h
    · cases h
      rw [Input.length_skip, left, List.length_cons]
      omega
    · contradiction

theorem length_separator_lt {close : UInt8} {input rest : Input} {more : Bool}
    (h : separator close input = .ok (more, rest)) :
    rest.bytes.length < input.bytes.length := by
  unfold separator at h
  split at h
  · contradiction
  · rename_i b left hb
    have taken : (input.skip 1).bytes.length < input.bytes.length := by
      rw [Input.length_skip, hb, List.length_cons]
      omega
    split at h
    · cases h
      exact taken
    · split at h
      · cases h
        exact taken
      · contradiction

/-- An item and what follows it, with whitespace before each. -/
def separated (item : Reader α) (close : UInt8) : Reader (α × Bool) where
  read input :=
    match item.read input.skipWhitespace with
    | .error e => .error e
    | .ok (a, rest) =>
      match separator close rest.skipWhitespace with
      | .error e => .error e
      | .ok (more, rest) => .ok ((a, more), rest)
  progress := by
    intro input a rest h
    split at h
    · contradiction
    · rename_i first
      split at h
      · contradiction
      · rename_i next
        cases h
        exact Nat.lt_of_lt_of_le (length_separator_lt next)
          (Nat.le_trans (Input.length_skipWhitespace_le _) (Nat.le_of_lt (Nat.lt_of_lt_of_le
            (item.progress first) (Input.length_skipWhitespace_le _))))

/-- The items up to the closing byte, after those in `done`, which has the latest first. -/
def items (item : Reader α) (close : UInt8) (done : List α) (input : Input) :
    Except ParseError (List α × Input) :=
  match _ : (separated item close).read input with
  | .error e => .error e
  | .ok ((a, true), rest) => items item close (a :: done) rest
  | .ok ((a, false), rest) => .ok ((a :: done).reverse, rest)
termination_by input.bytes.length
decreasing_by exact (separated item close).progress ‹_›

/-- The items of a container whose opening byte has been taken. -/
def container (item : Reader α) (close : UInt8) (input : Input) :
    Except ParseError (List α × Input) :=
  let inside := input.skipWhitespace
  if inside.bytes.head? = some close then .ok ([], inside.skip 1)
  else items item close [] inside

theorem length_items_lt (item : Reader α) (close : UInt8) (done : List α) (input : Input)
    {as : List α} {rest : Input} (h : items item close done input = .ok (as, rest)) :
    rest.bytes.length < input.bytes.length := by
  fun_induction items item close done input with
  | case1 => contradiction
  | case2 done input a middle step ih =>
    exact Nat.lt_trans (ih h) ((separated item close).progress step)
  | case3 done input a middle step =>
    cases h
    exact (separated item close).progress step

theorem length_container_le (item : Reader α) (close : UInt8) {input : Input} {as : List α}
    {rest : Input} (h : container item close input = .ok (as, rest)) :
    rest.bytes.length ≤ input.bytes.length := by
  have skipped := input.length_skipWhitespace_le
  simp only [container] at h
  split at h
  · cases h
    rw [Input.length_skip]
    omega
  · exact Nat.le_trans (Nat.le_of_lt (length_items_lt item close [] _ h)) skipped

theorem length_container_skip_lt {item : Reader α} {close : UInt8} {input : Input} {as : List α}
    {rest : Input} (left : 0 < input.bytes.length)
    (h : container item close (input.skip 1) = .ok (as, rest)) :
    rest.bytes.length < input.bytes.length := by
  have inside := length_container_le item close h
  rw [Input.length_skip] at inside
  omega

end Reader

end JsonTree
