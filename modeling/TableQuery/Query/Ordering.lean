import TableQuery.Query.Call
import TableQuery.Query.Nesting

/-! # Order lists

An order list names the columns that rows are ordered by, each a field path or a
call of an aggregate function, ascending unless a direction follows. A call stands
for the column of its label, however it is spaced and cased.
-/
namespace TableQuery

inductive Direction where
  | ascending
  | descending
  deriving DecidableEq, Repr

namespace Direction

def name : Direction → String
  | ascending => "ASC"
  | descending => "DESC"

def ofWord? (cs : List Char) : Option Direction :=
  let upper := cs.map Char.toUpper
  if upper = "ASC".toList then some ascending
  else if upper = "DESC".toList then some descending
  else none

end Direction

structure SortKey where
  column : String
  direction : Direction
  deriving DecidableEq, Repr

namespace SortKey
open Text

/-- The text before a last word of letters, and that word. -/
def lastWord? (cs : List Char) : Option (List Char × List Char) :=
  let back := cs.reverse
  let word := (back.takeWhile Char.isAlpha).reverse
  match blanks? (back.dropWhile Char.isAlpha) with
  | some (c :: rest) => if word.isEmpty then none else some ((c :: rest).reverse, word)
  | _ => none

def readItem (item : List Char) : Except Fault SortKey := do
  if item.isEmpty then throw .emptyOrderItem
  let (expression, direction) ←
    match lastWord? item with
    | none => pure (item, Direction.ascending)
    | some (expression, word) =>
      match Direction.ofWord? word with
      | some direction => pure (trim expression, direction)
      | none => throw (.badDirection (String.ofList word))
  match ← Call.read? .order expression with
  | some call => pure ⟨call.label, direction⟩
  | none =>
    if isFieldPath expression then pure ⟨String.ofList expression, direction⟩
    else throw (.badOrderField (String.ofList expression))

def readList (cs : List Char) : Except Fault (List SortKey) := do
  let text := trim cs
  if text.isEmpty then throw .emptyOrder
  (← splitCommas .order text).mapM readItem

end SortKey
end TableQuery
