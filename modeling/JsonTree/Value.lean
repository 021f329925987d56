/-!
The tree of a document. Children stay in document order, members of an object keep duplicate keys,
and a lookup returns the first match.
-/
namespace JsonTree

/-- A number is `int` or `float` when its literal is decoded and `literal` when its text is kept. -/
inductive Value where
  | string (s : String)
  | int (n : Int64)
  | float (x : Float)
  | literal (text : String)
  | array (items : List Value)
  | object (members : List (String × Value))
  | bool (b : Bool)
  | null

inductive Kind where
  | string | int | float | literal | array | object | bool | null
  deriving DecidableEq, Repr

namespace Value

def kind : Value → Kind
  | string _ => .string
  | int _ => .int
  | float _ => .float
  | literal _ => .literal
  | array _ => .array
  | object _ => .object
  | bool _ => .bool
  | null => .null

def isObject (v : Value) : Bool := v.kind = .object
def isArray (v : Value) : Bool := v.kind = .array
def isNull (v : Value) : Bool := v.kind = .null
def isBool (v : Value) : Bool := v.kind = .bool
def isString (v : Value) : Bool := v.kind = .string
def isInt (v : Value) : Bool := v.kind = .int
def isFloat (v : Value) : Bool := v.kind = .float

/-- Decoded or kept as text. -/
def isNumber (v : Value) : Bool := v.kind = .int || v.kind = .float || v.kind = .literal

def string? : Value → Option String
  | string s => some s
  | _ => none

def int? : Value → Option Int64
  | int n => some n
  | _ => none

/-- An integer counts as the nearest float. -/
def float? : Value → Option Float
  | float x => some x
  | int n => some n.toFloat
  | _ => none

def bool? : Value → Option Bool
  | bool b => some b
  | _ => none

def literal? : Value → Option String
  | literal text => some text
  | _ => none

def items? : Value → Option (List Value)
  | array items => some items
  | _ => none

def members? : Value → Option (List (String × Value))
  | object members => some members
  | _ => none

def at? (v : Value) (index : Nat) : Option Value := v.items?.bind fun items => items[index]?

/-- The value of the first member whose name passes the test. -/
def member? (v : Value) (named : String → Bool) : Option Value :=
  v.members?.bind fun members => (members.find? fun m => named m.1).map (·.2)

def get? (v : Value) (key : String) : Option Value := v.member? (· == key)

/-- Names are compared with `A` to `Z` taken as `a` to `z`, every other character as it is. -/
def getIgnoringCase? (v : Value) (key : String) : Option Value :=
  v.member? fun name => name.toList.map Char.toLower == key.toList.map Char.toLower

def size : Value → Nat
  | array items => items.length
  | object members => members.length
  | _ => 0

def isEmpty (v : Value) : Bool := v.size == 0

end Value

end JsonTree
