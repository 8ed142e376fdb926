import TableQuery.Data.Plain
import TableQuery.Number.Notation

/-! # JSON text of plain data

The compact form has no blanks. The indented form puts each item on its own line,
two blanks deeper than its list or record. In strings only quotes, backslashes and
control characters are escaped, and a number that is not finite is written as null.
-/
namespace TableQuery
namespace Json

def hexDigit (n : Nat) : Char := if n < 10 then Char.ofNat (48 + n) else Char.ofNat (87 + n)

def escapeChar (c : Char) : List Char :=
  match c.toNat with
  | 0x22 => ['\\', '"']
  | 0x5C => ['\\', '\\']
  | 0x08 => ['\\', 'b']
  | 0x09 => ['\\', 't']
  | 0x0A => ['\\', 'n']
  | 0x0C => ['\\', 'f']
  | 0x0D => ['\\', 'r']
  | n => if n < 0x20 then ['\\', 'u', '0', '0', hexDigit (n / 16), hexDigit (n % 16)] else [c]

def quoted (cs : List Char) : List Char := '"' :: (cs.flatMap escapeChar ++ ['"'])

def numberChars (x : Float) : List Char :=
  if Number.isFinite x then Number.textChars x else "null".toList

def commas (parts : List (List Char)) : List Char := [','].intercalate parts

/-- Items between brackets, each on its own line behind the given margin. -/
def indentedBlock (first last : Char) (margin : Nat) (parts : List (List Char)) : List Char :=
  if parts.isEmpty then [first, last]
  else
    let line (n : Nat) : List Char := '\n' :: List.replicate n ' '
    first :: line (margin + 2) ++ (',' :: line (margin + 2)).intercalate parts
      ++ line margin ++ [last]

end Json

namespace Plain

mutual
def json : Plain → List Char
  | .null => "null".toList
  | .bool b => if b then "true".toList else "false".toList
  | .number x => Json.numberChars x
  | .string s => Json.quoted s.toList
  | .list items => '[' :: (Json.commas (jsonItems items) ++ [']'])
  | .map fields => '{' :: (Json.commas (jsonFields fields) ++ ['}'])

def jsonItems : List Plain → List (List Char)
  | [] => []
  | item :: items => json item :: jsonItems items

def jsonFields : List (String × Plain) → List (List Char)
  | [] => []
  | (name, value) :: fields => (Json.quoted name.toList ++ ':' :: json value) :: jsonFields fields
end

def jsonText (p : Plain) : String := String.ofList p.json

mutual
def indented (margin : Nat) : Plain → List Char
  | .list items => Json.indentedBlock '[' ']' margin (indentedItems (margin + 2) items)
  | .map fields => Json.indentedBlock '{' '}' margin (indentedFields (margin + 2) fields)
  | .null => "null".toList
  | .bool b => if b then "true".toList else "false".toList
  | .number x => Json.numberChars x
  | .string s => Json.quoted s.toList

def indentedItems (margin : Nat) : List Plain → List (List Char)
  | [] => []
  | item :: items => indented margin item :: indentedItems margin items

def indentedFields (margin : Nat) : List (String × Plain) → List (List Char)
  | [] => []
  | (name, value) :: fields =>
    (Json.quoted name.toList ++ ':' :: ' ' :: indented margin value) :: indentedFields margin fields
end

def indentedText (p : Plain) : String := String.ofList (p.indented 0)

end Plain
end TableQuery
