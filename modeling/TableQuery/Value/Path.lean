import TableQuery.Value.Basic

/-! # Field paths

A path such as `data.location.x` names a field inside nested maps, one segment for
each level. A path that leads nowhere is told apart from one that leads to null
where the difference matters, and counts as null elsewhere.
-/
namespace TableQuery

def pathSegments : List Char → List (List Char)
  | [] => [[]]
  | c :: rest =>
    if c = '.' then [] :: pathSegments rest
    else
      match pathSegments rest with
      | [] => [[c]]
      | segment :: segments => (c :: segment) :: segments

namespace Value

def descend? : Value → List String → Option Value
  | v, [] => some v
  | .map fields, name :: names =>
    match Record.get? fields name with
    | some v => descend? v names
    | none => none
  | _, _ :: _ => none

end Value

namespace Row

/-- The value at a path, if every segment of it is there. -/
def resolve? (row : Row) (path : String) : Option Value :=
  Value.descend? (.map row) ((pathSegments path.toList).map String.ofList)

/-- The value at a path, null where the path leads nowhere. -/
def lookup (row : Row) (path : String) : Value := (resolve? row path).getD .null

/-- The value of a column: the field of exactly this name, or else the value at the path. -/
def column (row : Row) (name : String) : Value :=
  (Record.get? row name).getD (lookup row name)

end Row
end TableQuery
