import TableQuery.Data.Plain

/-! # Values

Every field of a row and every literal of a query is a value. Numbers are doubles
and come in two kinds: a number without fractional part is an integer, however
large, and any other a float. Plain data becomes a value by settling the kind of
each number, and a value becomes plain data by forgetting it.
-/
namespace TableQuery

inductive Value where
  | null
  | bool (b : Bool)
  | int (x : Float)
  | float (x : Float)
  | string (s : String)
  | list (items : List Value)
  | map (fields : List (String × Value))
  deriving Inhabited

abbrev Row := Record Value

namespace Value

def whole (x : Float) : Value := .int (Number.truncate x)

def ofNumber (x : Float) : Value := if Number.isIntegral x then whole x else .float x

def ofNat (n : Nat) : Value := .int (Number.ofNat n)

mutual
def ofPlain : Plain → Value
  | .null => .null
  | .bool b => .bool b
  | .number x => ofNumber x
  | .string s => .string s
  | .list items => .list (ofPlainItems items)
  | .map fields => .map (Record.ofList (ofPlainFields fields))

def ofPlainItems : List Plain → List Value
  | [] => []
  | item :: items => ofPlain item :: ofPlainItems items

def ofPlainFields : List (String × Plain) → List (String × Value)
  | [] => []
  | (name, item) :: fields => (name, ofPlain item) :: ofPlainFields fields
end

mutual
def toPlain : Value → Plain
  | .null => .null
  | .bool b => .bool b
  | .int x => .number x
  | .float x => .number x
  | .string s => .string s
  | .list items => .list (toPlainItems items)
  | .map fields => .map (Record.ofList (toPlainFields fields))

def toPlainItems : List Value → List Plain
  | [] => []
  | item :: items => toPlain item :: toPlainItems items

def toPlainFields : List (String × Value) → List (String × Plain)
  | [] => []
  | (name, item) :: fields => (name, toPlain item) :: toPlainFields fields
end

def isNull : Value → Bool
  | .null => true
  | _ => false

def number? : Value → Option Float
  | .int x => some x
  | .float x => some x
  | _ => none

def isNumeric (v : Value) : Bool := v.number?.isSome

end Value

namespace Row

def ofPlain (row : PlainRow) : Row := Record.ofList (Value.ofPlainFields row)

def toPlain (row : Row) : PlainRow := Record.ofList (Value.toPlainFields row)

end Row
end TableQuery
