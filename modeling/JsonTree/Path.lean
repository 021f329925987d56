import JsonTree.Number.Integer
import JsonTree.Text.Utf8
import JsonTree.Value

/-!
Paths into a tree: `.key` steps to a member, `[n]` to an element, and `:t` stays at a node of type
`t`. A token may hold one `*`, which takes the next argument; every argument has to be used. Whatever
goes wrong, nothing is selected.
-/
namespace JsonTree

/-- Whether a type check by this byte is met. Any number meets `n`. -/
def Kind.isNamedBy (kind : Kind) (b : UInt8) : Bool :=
  match Char.ofUInt8 b with
  | 's' => kind = .string
  | 'i' => kind = .int
  | 'f' => kind = .float
  | 'n' => kind = .int || kind = .float || kind = .literal
  | 'o' => kind = .object
  | 'a' => kind = .array
  | 'b' => kind = .bool
  | '!' => kind = .null
  | _ => false

inductive Argument where
  | index (n : Int64)
  | key (k : String)
  deriving DecidableEq

namespace Argument

def ofInt32 (n : Int32) : Argument := .index n.toInt64

def ofUInt32 (n : UInt32) : Argument := .index (Int64.ofNat n.toNat)

/-- A number above the greatest signed one is no position either way, and becomes that one. -/
def ofUInt64 (n : UInt64) : Argument := .index (Int64.ofNat (min n.toNat (Nat.pow 2 63 - 1)))

end Argument

namespace Path

inductive Step where
  | key
  | index
  | typeCheck
  deriving DecidableEq, Repr

def Step.ofByte? (b : UInt8) : Option Step :=
  if b = Byte.point then some .key
  else if b = Byte.openBracket then some .index
  else if b = Byte.colon then some .typeCheck
  else none

def isBoundary (b : UInt8) : Bool :=
  b == Byte.point || b == Byte.openBracket || b == Byte.colon || b == Byte.closeBracket

/-- A key goes where a key is asked for and an index where an index is. -/
def Step.argumentText? : Step → Argument → Option (List UInt8)
  | .index, .index n => some (Utf8.ofChars (Integer.text n.toInt))
  | .key, .key k => some (Utf8.ofString k)
  | _, _ => none

/-- A token with its wildcard filled in, and the arguments left. The argument is not searched for
wildcards. -/
def Step.token? (step : Step) (raw : List UInt8) (args : List Argument) :
    Option (List UInt8 × List Argument) :=
  match raw.dropWhile (· != Byte.star) with
  | [] => some (raw, args)
  | _ :: after =>
    if after.contains Byte.star then none
    else match args with
      | [] => none
      | a :: args =>
        (step.argumentText? a).map fun text => (raw.takeWhile (· != Byte.star) ++ text ++ after, args)

def longestToken : Nat := 256

/-- An index is digits alone, and may have leading zeros. -/
def index? (token : List UInt8) : Option Nat :=
  if token.all Byte.isDigit then
    match Integer.read Integer.unsigned token with
    | .ok n => some n.toNat
    | .error _ => none
  else none

/-- The node that a step leads to. Keys are compared byte by byte. -/
def Step.follow? (step : Step) (token : List UInt8) (v : Value) : Option Value :=
  match step with
  | .key => v.member? fun name => Utf8.ofString name == token
  | .index => (index? token).bind v.at?
  | .typeCheck =>
    match token with
    | [b] => if v.kind.isNamedBy b then some v else none
    | _ => none

/-- Follows a path from a node, segment by segment. -/
def evaluate (path : List UInt8) (args : List Argument) (v : Value) : Option Value :=
  match path with
  | [] => if args.isEmpty then some v else none
  | b :: rest =>
    match Step.ofByte? b with
    | none => none
    | some step =>
      match step.token? (rest.takeWhile (!isBoundary ·)) args with
      | none => none
      | some (token, args) =>
        let after := rest.dropWhile (!isBoundary ·)
        if step = .index && after.head? != some Byte.closeBracket then none
        else if token.isEmpty || token.length > longestToken then none
        else match step.follow? token v with
          | none => none
          | some child => evaluate (if step = .index then after.drop 1 else after) args child
termination_by path.length
decreasing_by
  have shorter := (List.dropWhile_sublist (!isBoundary ·) (l := rest)).length_le
  split
  · simp only [List.length_drop, List.length_cons]
    omega
  · simp only [List.length_cons]
    omega

end Path

/-- The node that a path leads to. The empty path leads to the tree itself. -/
def Value.select? (v : Value) (path : String) (args : List Argument) : Option Value :=
  Path.evaluate (Utf8.ofString path) args v

end JsonTree
