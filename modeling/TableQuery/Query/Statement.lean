import TableQuery.Filter.Parse
import TableQuery.Query.Ordering
import TableQuery.Query.Outline
import TableQuery.Query.Selection

/-! # Statements

A statement is a query with all its clauses read. The clauses are read in their
order, so the first clause with a fault decides the fault of the whole. A query to be
executed is parsed, its filter put together from its parts.
-/
namespace TableQuery

structure Statement where
  selection : Selection
  table : String
  filter : Filter
  group : List String
  order : List SortKey
  limit : Option Float

namespace Statement

def optional {α ε : Type} (absent : α) (read : List Char → Except ε α) :
    Option String → Except ε α
  | none => .ok absent
  | some text => read text.toList

def read (query : String) : Except Fault Statement := do
  let outline ← Outline.ofQuery query
  let selection ← Selection.read outline.select.toList
  let filter ← optional .all Filter.read outline.filter
  let group ← optional [] Query.readGroup outline.group
  let order ← optional [] SortKey.readList outline.order
  let limit ← optional none (fun cs => (Query.readLimit cs).map some) outline.limit
  pure ⟨selection, outline.source, filter, group, order, limit⟩

def parse (query : String) : Except ParseError Statement := do
  let outline ← (Outline.ofQuery query).mapError .fault
  let selection ← (Selection.read outline.select.toList).mapError .fault
  let filter ← optional .all Filter.parse outline.filter
  let group ← (optional [] Query.readGroup outline.group).mapError .fault
  let order ← (optional [] SortKey.readList outline.order).mapError .fault
  let limit ←
    (optional none (fun cs => (Query.readLimit cs).map some) outline.limit).mapError .fault
  pure ⟨selection, outline.source, filter, group, order, limit⟩

end Statement
end TableQuery
