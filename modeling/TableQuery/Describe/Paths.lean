import TableQuery.Text.Letter
import TableQuery.Text.Unit
import TableQuery.Value.Path

/-! # Paths that rows offer

The paths of a row are the names of its fields and, inside maps, the paths of the
map behind the name. They are offered to a reader who asked for a field that is not
there.
-/
namespace TableQuery

/-- The paths of some fields down to a number of levels; a path without a name in front starts
anew. -/
def fieldPaths : Nat → String → List (String × Value) → List String
  | 0, _, _ => []
  | levels + 1, parent, fields =>
    fields.flatMap fun (name, v) =>
      let path := if parent = "" then name else parent ++ "." ++ name
      match v with
      | .map inner => path :: fieldPaths levels path inner
      | _ => [path]

namespace Rows

def fieldExists (field : String) (rows : List Row) : Bool :=
  rows.any fun row => (row.resolve? field).isSome

/-- How many levels have at most a depth, where the top level has depth 0. -/
def levels (depth : Float) : Nat :=
  if Number.order depth (Number.ofNat 0) == .lt then 0
  else Number.wholePart (Number.magnitude depth) + 1

def paths (levels : Nat) (rows : List Row) : List String :=
  Text.sorted (rows.flatMap (fieldPaths levels "")).eraseDups

end Rows

/-- The first names of a list, with dots where there are more names than the bound. A negative bound
leaves out so many names at the end, and a fraction of a name is not counted. -/
def listNames (bound : Float) (names : List String) : String :=
  let count := Number.toInt bound
  let shown :=
    if 0 ≤ count then names.take count.toNat else names.take (names.length - count.natAbs)
  let exceeded := Number.order bound (Number.ofNat names.length) == .lt
  Text.commaJoin shown ++ if exceeded then ", ..." else ""

end TableQuery
