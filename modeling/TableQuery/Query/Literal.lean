import TableQuery.Query.Nesting
import TableQuery.Number.Notation
import TableQuery.Value.Basic

/-! # Literals

A literal is null, a truth value, a quoted text, a number, or else the bare text
itself. Inside quotes a quote is written twice and a backslash escapes line feed,
tab, carriage return and itself. A number is a float where it is written with a
point or an exponent.
-/
namespace TableQuery.Text

def undouble (q : Char) : List Char → List Char
  | [] => []
  | [c] => [c]
  | c :: d :: rest =>
    if c = q ∧ d = q then q :: undouble q rest else c :: undouble q (d :: rest)

/-- The character that a letter behind a backslash stands for. -/
def escapedLetter? : Char → Option Char
  | 'n' => some '\n'
  | 't' => some '\t'
  | 'r' => some '\r'
  | '\\' => some '\\'
  | _ => none

def unbackslash : List Char → List Char
  | [] => []
  | [c] => [c]
  | c :: d :: rest =>
    match if c = '\\' then escapedLetter? d else none with
    | some e => e :: unbackslash rest
    | none => c :: unbackslash (d :: rest)

def unescape (cs : List Char) : List Char := unbackslash (undouble '"' (undouble '\'' cs))

/-- The text between the quotes at both ends, if the same quote stands at both. -/
def unquote? : List Char → Option (List Char)
  | [] => none
  | q :: rest =>
    if Nesting.isQuote q && rest.getLast? == some q then some rest.dropLast else none

end TableQuery.Text

namespace TableQuery.Value
open Text

/-- The number that a text writes, if it writes one. -/
def readNumber? (cs : List Char) : Option Value :=
  let cs := trim cs
  (Number.ofDecimalText? cs).map fun x =>
    if cs.any (fun c => c == '.' || c.toLower == 'e') then .float x else whole x

def readLiteral (cs : List Char) : Value :=
  let cs := trim cs
  if cs.isEmpty then .string ""
  else if upper cs = "NULL".toList then .null
  else if upper cs = "TRUE".toList then .bool true
  else if upper cs = "FALSE".toList then .bool false
  else
    match unquote? cs with
    | some inner => .string (String.ofList (unescape inner))
    | none => (readNumber? cs).getD (.string (String.ofList cs))

/-- The literals between commas; empty items are passed over. -/
def readLiterals (cs : List Char) : Except Fault (List Value) :=
  if (trim cs).isEmpty then .ok []
  else do
    let parts ← splitCommas .filter cs
    pure ((parts.filter (!·.isEmpty)).map readLiteral)

end TableQuery.Value
