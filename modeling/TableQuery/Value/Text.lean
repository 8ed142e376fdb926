import TableQuery.Data.Json.Printer
import TableQuery.Value.Basic

/-! # Values as text

The text of a value is compared where two values have no natural order and is
matched by patterns. A cell of a text table differs from it in three ways: null is
empty, a float is rounded at its sixth place, and a float that comes out whole
keeps a point.
-/
namespace TableQuery.Value

def text : Value → String
  | .null => "null"
  | .bool b => if b then "true" else "false"
  | .int x => Number.text x
  | .float x => Number.text x
  | .string s => s
  | v => v.toPlain.jsonText

def isWholeText (cs : List Char) : Bool :=
  let digits := if cs.head? == some '-' then cs.tail else cs
  !digits.isEmpty && digits.all Char.isDigit

def floatCell (x : Float) : String :=
  let cs := Number.textChars (Number.roundSix x)
  String.ofList (if isWholeText cs then cs ++ ['.', '0'] else cs)

def cell : Value → String
  | .null => ""
  | .float x => floatCell x
  | v => v.text

end TableQuery.Value
