import TableQuery.Rows.Summary
import TableQuery.Value.Key

/-! # Groups

Rows with the same values in the group fields form a group; a missing field counts
as null. A group becomes one row with the group fields and the columns of the calls.
Groups stand in the order of their first rows.
-/
namespace TableQuery.Rows

def keepFirst {α : Type} (seen : List String) : List (String × α) → List (String × α)
  | [] => []
  | entry :: rest =>
    if seen.contains entry.1 then keepFirst seen rest
    else entry :: keepFirst (entry.1 :: seen) rest

def groupValues (fields : List String) (row : Row) : List Value := fields.map row.lookup

def groupKey (fields : List String) (row : Row) : String :=
  Value.tupleKey (groupValues fields row)

/-- A group in a result: the values of its calls by column, and the row that shows them. The two
differ where a call has the column `__proto__`, of which a record holds no field: the row does not
show its value, but groups can still be ordered by it. -/
structure Group where
  values : List (String × Value)
  row : Row

/-- The values of some calls, each applied to all the given rows. -/
def callValues (calls : List (String × Call)) (rows : List Row) : List (String × Value) :=
  calls.map fun (column, call) => (column, summarize call rows)

/-- The group of `members`, which agree with `first` in the group fields. -/
def Group.ofMembers (fields : List String) (calls : List (String × Call)) (first : Row)
    (members : List Row) : Group :=
  let values := callValues calls members
  let shared := fields.map fun field => (field, first.lookup field)
  ⟨values, Record.ofList (shared ++ values)⟩

/-- The groups of rows with the same values in the group fields. -/
def groups (fields : List String) (calls : List (String × Call)) (rows : List Row) : List Group :=
  let keyed := rows.map fun row => (groupKey fields row, row)
  (keepFirst [] keyed).map fun (key, first) =>
    Group.ofMembers fields calls first ((keyed.filter fun entry => entry.1 == key).map (·.2))

/-- One group of all the given rows, or none where none is given. -/
def whole (calls : List (String × Call)) : List Row → List Group
  | [] => []
  | first :: rest => [Group.ofMembers [] calls first (first :: rest)]

def group (fields : List String) (calls : List (String × Call)) (rows : List Row) : List Row :=
  (groups fields calls rows).map Group.row

/-- The row over all the given rows, or none where none is given. -/
def summarizeAll (calls : List (String × Call)) (rows : List Row) : List Row :=
  (whole calls rows).map Group.row

end TableQuery.Rows
