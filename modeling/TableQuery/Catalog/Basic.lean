import TableQuery.Catalog.Issue
import TableQuery.Query.Name
import TableQuery.Text.Unit
import TableQuery.Value.Basic

/-! # Catalogs of tables

A catalog holds named tables of plain rows, each with an optional description. It is
given as plain data that maps each name to its rows, or to a description and rows.
Every catalog also has a table `tables` that lists its tables, unless the data
defines one of that name.
-/
namespace TableQuery

structure Table where
  description : Option String
  rows : List PlainRow

structure Catalog where
  tables : List (String × Table)

namespace Catalog

def tablesName : String := "tables"

def readRow? : Plain → Option PlainRow
  | .map fields => if Plain.isFiniteFields fields then some fields else none
  | _ => none

def readRows? : Option Plain → Option (List PlainRow)
  | some (.list items) => items.mapM readRow?
  | _ => none

def readTable? : Plain → Option Table
  | .list items => (readRows? (some (.list items))).map (⟨none, ·⟩)
  | .map fields => do
    let rows ← readRows? (Record.get? fields "rows")
    match Record.get? fields "description" with
    | none => pure ⟨none, rows⟩
    | some (.string description) => pure ⟨some description, rows⟩
    | some _ => none
  | _ => none

def readEntry (name : String) (p : Plain) : Checked (Option (String × Table)) :=
  if !Text.isName name.toList then ⟨[⟨[name], .badKey⟩], none⟩
  else
    match readTable? p with
    | some table => ⟨[], some (name, table)⟩
    | none => ⟨[⟨[name], .noMatch⟩], none⟩

/-- The catalog given by plain data, or every table of it that is none. -/
def ofPlain : Option Plain → Except (List Issue) Catalog
  | some (.map fields) =>
    let entries := fields.map fun (name, p) => readEntry name p
    let issues := entries.flatMap (·.issues)
    if issues.isEmpty then .ok ⟨entries.filterMap (·.value)⟩ else .error issues
  | p => .error [Plain.mismatch [] .record p]

def find? (c : Catalog) (name : String) : Option Table := c.tables.lookup name

def has (c : Catalog) (name : String) : Bool := (c.find? name).isSome || name == tablesName

def names (c : Catalog) : List String :=
  let own := c.tables.map (·.1)
  if own.contains tablesName then own else own ++ [tablesName]

def description? (c : Catalog) (name : String) : Option String :=
  match c.find? name with
  | some table => table.description
  | none => if name = tablesName then some "Every available table" else none

/-- One row for each table, with its name and description. -/
def listing (c : Catalog) : List Row :=
  (Text.sorted c.names).map fun name =>
    [("table", .string name), ("description", .string ((c.description? name).getD ""))]

/-- The rows of a table, if there is such a table. -/
def rows? (c : Catalog) (name : String) : Option (List Row) :=
  match c.find? name with
  | some table => some (table.rows.map Row.ofPlain)
  | none => if name = tablesName then some c.listing else none

end Catalog
end TableQuery
