import JsonTree.ParseError
import JsonTree.Whitespace

/-!
What is left of a text, with the offset at which it begins. A failure found in a piece of the text is
first placed relative to that piece, and becomes a `ParseError` once the piece is placed.
-/
namespace JsonTree

structure Input where
  offset : Nat
  bytes : List UInt8

/-- A failure by its distance from the start of the piece that shows it. -/
structure Fault where
  kind : ErrorKind
  index : Nat
  deriving DecidableEq, Repr

namespace Fault

/-- The same failure seen from a start that lies `n` bytes before. -/
def shift (f : Fault) (n : Nat) : Fault := ⟨f.kind, f.index + n⟩

/-- The byte reported is the one at the fault, or 0 where the piece ends there. -/
def locate (f : Fault) (input : Input) : ParseError :=
  ⟨f.kind, input.bytes.getD f.index 0, input.offset + f.index⟩

end Fault

namespace Input

def ofBytes (bytes : List UInt8) : Input := ⟨0, bytes⟩

def skip (input : Input) (n : Nat) : Input := ⟨input.offset + n, input.bytes.drop n⟩

def skipWhitespace (input : Input) : Input := input.skip (Whitespace.wideRun input.bytes)

def fail (input : Input) (kind : ErrorKind) : ParseError := (Fault.mk kind 0).locate input

@[simp] theorem length_skip (input : Input) (n : Nat) :
    (input.skip n).bytes.length = input.bytes.length - n := by
  simp [skip]

theorem length_skipWhitespace_le (input : Input) :
    input.skipWhitespace.bytes.length ≤ input.bytes.length := by
  simp [skipWhitespace]

end Input

end JsonTree
