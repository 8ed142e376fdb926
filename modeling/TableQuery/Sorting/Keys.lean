import TableQuery.Query.Ordering
import TableQuery.Sorting.Runs
import TableQuery.Value.Order
import TableQuery.Value.Path

/-! # Ordering rows by columns

Rows are compared column by column until one differs. Truth values are ordered as 0
and 1, lists and maps by their text, and null comes last in both directions.
-/
namespace TableQuery
open Sorting

namespace Value

def sortForm : Value → Value
  | .bool b => .int (Number.ofNat b.toNat)
  | .list items => .string (Value.list items).text
  | .map fields => .string (Value.map fields).text
  | v => v

def sortOrder (direction : Direction) (a b : Value) : Ordering :=
  match a.isNull, b.isNull with
  | true, true => .eq
  | true, false => .gt
  | false, true => .lt
  | false, false =>
    let order := looseOrder a.sortForm b.sortForm
    match direction with
    | .ascending => order
    | .descending => order.swap

end Value

namespace Rows

variable {α : Type}

/-- Compares two rows, or whatever has columns, by the columns that `read` finds in them. -/
def order (keys : List SortKey) (read : α → String → Value) (a b : α) : Ordering :=
  match keys with
  | [] => .eq
  | key :: keys =>
    (Value.sortOrder key.direction (read a key.column) (read b key.column)).then
      (order keys read a b)

def sort (keys : List SortKey) (read : α → String → Value) (rows : List α) : List α :=
  if keys.isEmpty then rows else Sorting.sort (order keys read) rows

end Rows
end TableQuery
