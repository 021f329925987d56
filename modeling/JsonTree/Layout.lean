import JsonTree.Number.FloatText
import JsonTree.Text.Quoted
import JsonTree.Value

/-!
The text of a tree: one child per line, indented by two spaces per level, an empty container on one
line. The text is appended to what is written before it.
-/
namespace JsonTree.Value

def indent (depth : Nat) : String := String.ofList (List.replicate (2 * depth) ' ')

def quoted (s : String) : String := String.ofList (Quoted.encode s.toList)

def boolText (b : Bool) : String := if b then "true" else "false"

mutual

/-- `depth` is the indentation of the line that the value begins on. -/
def write (depth : Nat) (out : String) : Value → String
  | string s => out ++ quoted s
  | int n => out ++ String.ofList (Integer.text n.toInt)
  | float x => out ++ String.ofList (FloatText.text x)
  | literal text => out ++ text
  | bool b => out ++ boolText b
  | null => out ++ "null"
  | array [] => out ++ "[]"
  | object [] => out ++ "\x7b\x7d"
  | array (v :: rest) =>
    let out := v.write (depth + 1) (out ++ "[\n" ++ indent (depth + 1))
    writeItems (depth + 1) out rest ++ "\n" ++ indent depth ++ "]"
  | object ((key, v) :: rest) =>
    let out := v.write (depth + 1) (out ++ "\x7b\n" ++ indent (depth + 1) ++ quoted key ++ ": ")
    writeMembers (depth + 1) out rest ++ "\n" ++ indent depth ++ "\x7d"

def writeItems (depth : Nat) (out : String) : List Value → String
  | [] => out
  | v :: rest => writeItems depth (v.write depth (out ++ ",\n" ++ indent depth)) rest

def writeMembers (depth : Nat) (out : String) : List (String × Value) → String
  | [] => out
  | (key, v) :: rest =>
    writeMembers depth (v.write depth (out ++ ",\n" ++ indent depth ++ quoted key ++ ": ")) rest

end

def toJson (v : Value) : String := v.write 0 ""

end JsonTree.Value
