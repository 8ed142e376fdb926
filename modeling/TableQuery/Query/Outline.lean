import TableQuery.Query.Name
import TableQuery.Query.Nesting

/-! # The outline of a query

A query is cut at its clause keywords: whole words at the top level, in either case,
of which the first of each kind counts. The clauses stand in a fixed order, a query
starts with its select list, and the source is a single name. Semicolons at the end
are no part of it.
-/
namespace TableQuery

structure Outline where
  select : String
  source : String
  filter : Option String
  group : Option String
  order : Option String
  limit : Option String
  deriving DecidableEq, Repr

namespace Outline
open Text

/-- What follows two words with blanks between them. -/
def twoWords? (first second : List Char) (cs : List Char) : Option (List Char) :=
  (word? first cs).bind fun rest => (blanks? rest).bind (word? second)

def clauseWord? (cs : List Char) : Clause → Option (List Char)
  | .query => none
  | .select => word? "SELECT".toList cs
  | .source => word? "FROM".toList cs
  | .filter => word? "WHERE".toList cs
  | .group => twoWords? "GROUP".toList "BY".toList cs
  | .order => twoWords? "ORDER".toList "BY".toList cs
  | .limit => word? "LIMIT".toList cs

/-- The clause whose keyword starts a text, and the length of the keyword. -/
def keyword? (cs : List Char) : Option (Clause × Nat) :=
  [Clause.select, .source, .filter, .group, .order, .limit].findSome? fun clause =>
    match clauseWord? cs clause with
    | some rest => if wordEnds rest then some (clause, cs.length - rest.length) else none
    | none => none

/-- A keyword cuts the text the first time it is met. -/
def findKeyword (seen : List Clause) (cs : List Char) :
    Option (List Clause × Option Clause × Nat) :=
  (keyword? cs).map fun (clause, length) =>
    if seen.contains clause then (seen, none, length) else (clause :: seen, some clause, length)

/-- The text of a query without blanks around it and without semicolons at its end. -/
def body (query : String) : List Char :=
  trim ((trim query.toList).reverse.dropWhile (· == ';')).reverse

/-- The first clause that stands behind a later one. -/
def misplaced? : List Clause → Option Fault
  | first :: second :: rest =>
    if second.position < first.position then some (.misplaced second first)
    else misplaced? (second :: rest)
  | _ => none

def textOf? (cuts : List (Clause × List Char)) (clause : Clause) : Option String :=
  (cuts.lookup clause).map fun cs => String.ofList (trim cs)

def ofQuery (query : String) : Except Fault Outline := do
  let text := body query
  if text.isEmpty then throw .emptyQuery
  requireBalance .query text
  match Nesting.cutWords findKeyword (.outside 0) true 0 [] text with
  | ([], (.select, select) :: (.source, source) :: cuts) =>
    match misplaced? (.select :: .source :: cuts.map (·.1)) with
    | some fault => throw fault
    | none => pure ()
    let source := trim source
    if source.isEmpty then throw .noStructure
    if !isName source then throw (.badTableName (String.ofList source))
    pure {
      select := String.ofList (trim select)
      source := String.ofList source
      filter := textOf? cuts .filter
      group := textOf? cuts .group
      order := textOf? cuts .order
      limit := textOf? cuts .limit }
  | _ => throw .noStructure

end Outline
end TableQuery
