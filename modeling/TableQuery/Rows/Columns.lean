import TableQuery.Query.Selection
import TableQuery.Rows.Grouping

/-! # Columns of a result

A column of the result is read from a row by the select list: a call by its column
name, an alias from the path it stands for unless the row has a field of that name,
and any other column by its own name or path. The same reading serves the
projection, the removal of repeated rows and the order. What is read for a call is
no value where the row has no field of its column but every record answers to the
name. Only selections without calls are projected, and groups hold the values of
their calls, so this concerns nothing but the removal of repeated rows, where what
is no value has the key of null.
-/
namespace TableQuery

/-- The value of a column, null where what is read is no value. -/
def Selection.valueOf (s : Selection) (row : Row) (column : String) : Value :=
  if Entries.has s.calls column then (Record.get? row column).getD .null
  else
    match s.aliases.lookup column with
    | some source => if Record.has row column then row.column column else row.column source
    | none => row.column column

/-- What is read from a row for a column, if it is a value. -/
def Selection.reading (noted : Record.Noted) (s : Selection) (row : Row) (column : String) :
    Option Value :=
  if Entries.has s.calls column && !Record.has row column && noted.answers column then none
  else some (s.valueOf row column)

/-- Reads a column from a group: a call from the values of the group, all else from its row. -/
def Selection.groupValue (s : Selection) (g : Rows.Group) (column : String) : Value :=
  (g.values.lookup column).getD (s.valueOf g.row column)

namespace Rows

/-- Rows that hold the selected columns and nothing else. -/
def project (s : Selection) (rows : List Row) : List Row :=
  rows.map fun row =>
    s.columns.foldl (fun out column => Record.set out column (s.valueOf row column)) []

/-- What tells a row from others: all of it, or its selected columns. -/
def distinctKey (s : Selection) (row : Row) : String :=
  if s.isStar then Value.tupleKey [.map row]
  else Value.tupleKey (s.columns.map (s.valueOf row))

def distinct (s : Selection) (rows : List Row) : List Row :=
  (keepFirst [] (rows.map fun row => (distinctKey s row, row))).map (·.2)

end Rows
end TableQuery
