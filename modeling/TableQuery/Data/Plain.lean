import TableQuery.Data.Record
import TableQuery.Number.Nearest

/-! # Plain data

What tables are given as and what results are returned as: null, booleans, numbers,
strings, lists and records of plain data.
-/
namespace TableQuery

inductive Plain where
  | null
  | bool (b : Bool)
  | number (x : Float)
  | string (s : String)
  | list (items : List Plain)
  | map (fields : List (String × Plain))
  deriving Inhabited

abbrev PlainRow := Record Plain

namespace Plain

def ofNat (n : Nat) : Plain := .number (Number.ofNat n)

def strings (texts : List String) : Plain := .list (texts.map .string)

/-- The record of the given fields, without those that are absent. -/
def ofFields (fields : List (String × Option Plain)) : Plain :=
  .map (Record.ofList (fields.filterMap fun (name, value) => value.map (name, ·)))

def field? (p : Plain) (name : String) : Option Plain :=
  match p with
  | .map fields => Record.get? fields name
  | _ => none

end Plain
end TableQuery
