import TableQuery.Catalog.Provider
import TableQuery.Describe.Paths
import TableQuery.Filter.Evaluation
import TableQuery.Query.Statement
import TableQuery.Rows.Columns
import TableQuery.Rows.Evaluation
import TableQuery.Session.Journal
import TableQuery.Session.Limit
import TableQuery.Session.Response
import TableQuery.Sorting.Keys

/-! # Executing a query

The rows of one table are filtered, then grouped or summarised, or else freed of
repeated rows where that is asked for, ordered, cut to the limit and projected to the
selected columns. Rows that hold calls keep the columns of their group. Whatever breaks
off in a stage becomes a failure that names the stage, and every failure becomes a
response.
-/
namespace TableQuery

/-- An answer together with what it leaves in the journal. -/
abbrev Recorded (α : Type) := StateM Journal α

namespace Statement

/-- The column that an order key means: a call that was given an alias is ordered by the alias. -/
def orderColumn (s : Statement) (column : String) : String :=
  if Entries.has s.selection.calls column then column
  else
    match s.selection.aliases.find? fun (name, source) =>
      source == column && Entries.has s.selection.calls name with
    | some (name, _) => name
    | none => column

def filtered (s : Statement) (rows : List Row) : List Row :=
  rows.filter fun row => s.filter.accepts row

def isGrouped (s : Statement) : Bool := !s.group.isEmpty || !s.selection.calls.isEmpty

def groups (s : Statement) (rows : List Row) : List Rows.Group :=
  if s.group.isEmpty then Rows.whole s.selection.calls rows
  else Rows.groups s.group s.selection.calls rows

def distinctRows (s : Statement) (rows : List Row) : List Row :=
  if s.selection.distinct then Rows.distinct s.selection rows else rows

def ordered {α : Type} (s : Statement) (read : α → String → Value) (rows : List α) : List α :=
  let keys := s.order.map fun key => { key with column := s.orderColumn key.column }
  Rows.sort keys read rows

def found (s : Statement) (rows : List Row) : List Row :=
  let rows := s.filtered rows
  if s.isGrouped then (s.ordered s.selection.groupValue (s.groups rows)).map (·.row)
  else s.ordered s.selection.valueOf (s.distinctRows rows)

def projected (s : Statement) (rows : List Row) : List Row :=
  if !s.selection.isStar && s.selection.calls.isEmpty then Rows.project s.selection rows else rows

/-- The rows of the answer, given the rows of the table and the caller's limit. -/
def answer (s : Statement) (limit : Float) (rows : List Row) : List Row :=
  s.projected (Limit.cut (Limit.effective s.limit limit) (s.found rows))

def stage {α ε : Type} (label : Stage) (message : ε → String) (x : Except ε α) :
    Except Failure α :=
  x.mapError fun reason => .broken label (message reason)

def plainStage {α : Type} (label : Stage) (a : α) : Except Failure α := stage label id (.ok a)

def evaluateFilter (s : Statement) (rows : List Row) : Except Failure (List Row) :=
  if s.filter.isEmpty then .ok rows
  else stage .filter BadExpression.message (s.filter.keep rows)

def evaluateGroups (s : Statement) (rows : List Row) : Except Failure (List Rows.Group) :=
  if s.group.isEmpty then
    stage .summary Fault.message (Rows.evaluateWhole s.selection.calls rows)
  else stage .group Fault.message (Rows.evaluateGroups s.group s.selection.calls rows)

def evaluateFound (s : Statement) (rows : List Row) : Except Failure (List Row) := do
  let rows ← s.evaluateFilter rows
  if s.isGrouped then
    let groups ← s.evaluateGroups rows
    let groups ← plainStage .order (s.ordered s.selection.groupValue groups)
    pure (groups.map (·.row))
  else
    let rows ← plainStage .distinct (s.distinctRows rows)
    plainStage .order (s.ordered s.selection.valueOf rows)

/-- The rows of the answer, or the stage in which their evaluation breaks off. -/
def evaluate (s : Statement) (limit : Float) (rows : List Row) : Except Failure (List Row) := do
  let found ← s.evaluateFound rows
  plainStage .projection (s.projected (Limit.cut (Limit.effective s.limit limit) found))

/-- A selected column that is neither a call nor an alias and is found in none of the first
rows. -/
def missingField? (settings : Settings) (s : Statement) (rows : List Row) : Option String :=
  if rows.isEmpty || s.selection.isStar then none
  else
    let sample := rows.take settings.fieldSampleRows
    s.selection.columns.find? fun column =>
      !Entries.has s.selection.calls column && !Entries.has s.selection.aliases column
        && !Rows.fieldExists column sample

def checkFields (settings : Settings) (s : Statement) (rows : List Row) : Except Failure Unit :=
  match missingField? settings s rows with
  | none => .ok ()
  | some field =>
    let offered :=
      Rows.paths (settings.suggestionDepth + 1) (rows.take settings.suggestionSampleRows)
    let bound := Number.ofNat settings.maxSuggestedFields
    .error (.unknownField field s.table (listNames bound offered))

end Statement

/-- What an engine is made of: its settings. -/
structure Engine where
  settings : Settings

namespace Engine

def fetch (p : Provider) (table : String) : ExceptT Failure (StateM Journal) (List Row) := do
  match p.hasTable table with
  | .error reason => throw (.unexpected reason)
  | .ok false =>
    match p.sortedNames with
    | .error reason => throw (.unexpected reason)
    | .ok names => throw (.unknownTable table names)
  | .ok true =>
    modify (Journal.fetch table)
    match p.rows table with
    | .ok rows => pure rows
    | .error reason => throw (.notLoaded table reason)

/-- The rows of an answer in a format, as long as nothing that was noted is in the way. -/
def render (format : Format) (result : List Row) : ExceptT Failure (StateM Journal) Rendered := do
  (format.render (← get).noted result).mapError Failure.notRendered

def run (e : Engine) (p : Provider) (query : String) (limit : Float) (format : String) :
    ExceptT Failure (StateM Journal) (Format × Nat × Rendered) := do
  let some format := Format.ofName? format | throw (.unknownFormat format)
  let statement ← (Statement.parse query).mapError Failure.ofParseError
  let rows ← fetch p statement.table
  statement.checkFields e.settings rows
  let result ← statement.evaluate limit rows
  let data ← render format result
  pure (format, result.length, data)

/-- Answers a query; without a limit the default one counts. -/
def execute (e : Engine) (p : Provider) (query : String) (limit : Option Float) (format : String) :
    Recorded Response := do
  let limit := limit.getD (Number.ofNat e.settings.defaultLimit)
  match ← (e.run p query limit format).run with
  | .ok (format, count, data) =>
    modify (Journal.log (.answered count query))
    pure (.success format count data)
  | .error failure =>
    modify (Journal.log (.message ("query failed: " ++ failure.message ++ ": " ++ query)))
    pure (.failure format failure)

end Engine
end TableQuery
