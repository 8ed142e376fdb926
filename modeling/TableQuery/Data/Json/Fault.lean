import TableQuery.Text.Unit

/-! # Faults of a JSON text

What can be wrong with a JSON text. A fault holds what was still to be read where it
was found, so that its place can be counted in the whole text: in 16-bit units from
0, and in lines and columns from 1. A character that begins nothing is shown between
its neighbours, ten units on either side.
-/
namespace TableQuery.Json

inductive Mistake where
  /-- A value or the rest of a word cannot go on like this. -/
  | unexpected
  | noFirstFieldName
  | noFieldName
  | noColon
  | noFieldEnd
  | noItemEnd
  | openString
  | controlCharacter
  | badEscape
  | badUnitEscape
  | loneMinus
  | emptyFraction
  | emptyPower
  | textBehindValue
  deriving DecidableEq, Repr

structure Fault where
  mistake : Mistake
  /-- What was still to be read. -/
  rest : List Char
  deriving DecidableEq, Repr

/-- Line and column behind some units, when counting starts at the given ones. A carriage return
and the line feed behind it end one line. -/
def lineAndColumn (line column : Nat) : List Nat → Nat × Nat
  | [] => (line, column)
  | 0x0D :: 0x0A :: units => lineAndColumn (line + 1) 1 units
  | u :: units =>
    if u = 0x0D ∨ u = 0x0A then lineAndColumn (line + 1) 1 units
    else lineAndColumn line (column + 1) units

def inQuotes (units : List Nat) : String :=
  "\"" ++ String.ofList (Text.charsOfUnits units) ++ "\""

/-- The units around a position between quotes, with dots where the text is cut. A text of twenty
units or less is not cut. -/
def surroundings (units : List Nat) (position : Nat) : String :=
  let size := units.length
  if size ≤ 20 then inQuotes units
  else if position < 10 then inQuotes (units.take (position + 10)) ++ "..."
  else
    let tail := units.drop (position - 10)
    if position + 10 < size then "..." ++ inQuotes (tail.take 20) ++ "..."
    else "..." ++ inQuotes tail

/-- Texts that are shown whole because they are no JSON from their first letter on. -/
def foreignTexts : List String := ["[object Object]", "NaN", "Infinity", "undefined"]

namespace Fault

def position (text : String) (f : Fault) : Nat :=
  Text.width text - (f.rest.flatMap Text.charUnits).length

def place (text : String) (f : Fault) : String :=
  let n := f.position text
  let (line, column) := lineAndColumn 1 1 ((Text.units text).take n)
  " at position " ++ toString n ++ " (line " ++ toString line ++ " column "
    ++ toString column ++ ")"

/-- The message about what stands where a value was expected. -/
def unexpectedMessage (text : String) (f : Fault) : String :=
  match f.rest with
  | [] => "Unexpected end of JSON input"
  | c :: _ =>
    if c.isDigit || c == '-' then "Unexpected number in JSON" ++ f.place text
    else if c == '"' then "Unexpected string in JSON" ++ f.place text
    else
      let units := Text.units text
      if foreignTexts.contains text then inQuotes units ++ " is not valid JSON"
      else
        let token := String.ofList (Text.charsOfUnits ((Text.charUnits c).take 1))
        "Unexpected token '" ++ token ++ "', " ++ surroundings units (f.position text)
          ++ " is not valid JSON"

/-- The message about a fault that was found in a text. -/
def message (text : String) (f : Fault) : String :=
  match f.mistake with
  | .unexpected => f.unexpectedMessage text
  | .noFirstFieldName => "Expected property name or '\x7d' in JSON" ++ f.place text
  | .noFieldName => "Expected double-quoted property name in JSON" ++ f.place text
  | .noColon => "Expected ':' after property name in JSON" ++ f.place text
  | .noFieldEnd => "Expected ',' or '\x7d' after property value in JSON" ++ f.place text
  | .noItemEnd => "Expected ',' or ']' after array element in JSON" ++ f.place text
  | .openString => "Unterminated string in JSON" ++ f.place text
  | .controlCharacter => "Bad control character in string literal in JSON" ++ f.place text
  | .badEscape => "Bad escaped character in JSON" ++ f.place text
  | .badUnitEscape => "Bad Unicode escape in JSON" ++ f.place text
  | .loneMinus => "No number after minus sign in JSON" ++ f.place text
  | .emptyFraction => "Unterminated fractional number in JSON" ++ f.place text
  | .emptyPower => "Exponent part is missing a number in JSON" ++ f.place text
  | .textBehindValue => "Unexpected non-whitespace character after JSON" ++ f.place text

end Fault
end TableQuery.Json
