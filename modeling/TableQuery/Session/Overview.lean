import TableQuery.Describe.Profile
import TableQuery.Session.Execute

/-! # Overviews of the tables

What an engine tells about the tables of a provider: the fields of one table, the
fields of all tables, how many rows each has, and a Markdown summary. A table that
cannot be loaded is reported in its place and does not spoil the overview.
-/
namespace TableQuery

/-- Why the overview of one table fails. -/
inductive TableTrouble where
  | unexpected (reason : String)
  | unknown (name : String) (available : List String)
  | notLoaded (table reason : String)
  | notSurveyed (reason : SurveyFault)
  deriving DecidableEq, Repr

def TableTrouble.message : TableTrouble → String
  | unexpected reason => reason
  | unknown name available => (Failure.unknownTable name available).message
  | notLoaded table reason => (Failure.notLoaded table reason).message
  | notSurveyed reason => reason.message

def profilesPlain (fields : Record Profile) : Plain :=
  .map (fields.map fun (name, profile) => (name, profile.toPlain))

/-- The overview of one table. -/
structure TableSchema where
  table : String
  description : String
  fields : Record Profile
  rowCount : Nat

def TableSchema.toPlain (s : TableSchema) : Plain :=
  .ofFields [("table", some (.string s.table)), ("description", some (.string s.description)),
    ("fields", some (profilesPlain s.fields)), ("sampleCount", some (.ofNat s.rowCount))]

/-- One table in the overview of all. -/
structure TableInfo where
  name : String
  description : String
  count : Nat
  fields : Record Profile
  fieldCount : Nat
  error : Option String

structure FullSchema where
  format : Format
  tables : List TableInfo
  /-- The fields of all tables as text, with their number. -/
  flattened : Option (Rendered × Nat)

def FullSchema.totalTables (s : FullSchema) : Nat := s.tables.length

def FullSchema.totalRows (s : FullSchema) : Nat := s.tables.foldl (fun n t => n + t.count) 0

/-- Why the overview of all tables fails. -/
inductive SchemaTrouble where
  | unknownFormat (name : String)
  | unexpected (reason : String)
  deriving DecidableEq, Repr

def SchemaTrouble.message : SchemaTrouble → String
  | unknownFormat name => Format.unknownMessage name
  | unexpected reason => reason

structure SchemaOptions where
  format : String
  includeSamples : Bool
  maxSamples : Nat

/-- The number of rows of every table, and what went wrong. -/
structure TableCounts where
  counts : Record Nat
  errors : List String

def TableCounts.totalTables (c : TableCounts) : Nat := c.counts.length

def TableCounts.totalRows (c : TableCounts) : Nat := c.counts.foldl (fun n entry => n + entry.2) 0

def TableCounts.toPlain (c : TableCounts) : Plain :=
  .ofFields [("status", some (.string "success")),
    ("tableCounts", some (.map (c.counts.map fun (name, n) => (name, .ofNat n)))),
    ("totalTables", some (.ofNat c.totalTables)),
    ("totalElements", some (.ofNat c.totalRows)),
    ("errors", if c.errors.isEmpty then none else some (.strings c.errors))]

namespace Engine

def fetchRows (p : Provider) (table : String) : Recorded (Except String (List Row)) := do
  modify (Journal.fetch table)
  pure (p.rows table)

def profiled (maxSamples : Option Nat) (rows : List Row) :
    Recorded (Except SurveyFault (Record Profile)) := do
  let (profiles, noted) := Profile.ofRows maxSamples (← get).noted rows
  modify (Journal.note noted)
  pure profiles

/-- The overview of one table, its fields taken from its first rows. -/
def tableSchema (e : Engine) (p : Provider) (table : String) :
    ExceptT TableTrouble (StateM Journal) TableSchema := do
  match p.hasTable table with
  | .error reason => throw (.unexpected reason)
  | .ok false =>
    match p.sortedNames with
    | .error reason => throw (.unexpected reason)
    | .ok names => throw (.unknown table names)
  | .ok true =>
    match ← ExceptT.lift (fetchRows p table) with
    | .error reason => throw (.notLoaded table reason)
    | .ok rows =>
      let description ← (p.describe table).mapError TableTrouble.unexpected
      let profiles ← ExceptT.lift (profiled (some e.settings.maxSampleValues)
        (rows.take e.settings.schemaSampleRows))
      let fields ← profiles.mapError TableTrouble.notSurveyed
      pure ⟨table, description, fields, rows.length⟩

/-- The number of rows of a table and its profiles, or why there are none. -/
def inspect (p : Provider) (maxSamples : Option Nat) (name : String) :
    Recorded (Except String (Nat × Record Profile)) := do
  match ← fetchRows p name with
  | .error reason => pure (.error reason)
  | .ok rows =>
    match ← profiled maxSamples rows with
    | .ok fields => pure (.ok (rows.length, fields))
    | .error reason => pure (.error reason.message)

def tableInfo (p : Provider) (maxSamples : Option Nat) (name : String) :
    ExceptT String (StateM Journal) TableInfo := do
  let description ← p.describe name
  match ← ExceptT.lift (inspect p maxSamples name) with
  | .ok (count, fields) => pure ⟨name, description, count, fields, fields.length, none⟩
  | .error reason =>
    modify (Journal.log (.message ("schema: " ++ (TableTrouble.notLoaded name reason).message)))
    pure ⟨name, description, 0, [], 0, some reason⟩

def samplesText : Option (List Plain) → String
  | none => ""
  | some samples => if samples.isEmpty then "" else (Plain.list samples).jsonText

def flatRows (tables : List TableInfo) : List Row :=
  tables.flatMap fun table => table.fields.map fun (name, profile) =>
    [("table_name", .string table.name), ("table_description", .string table.description),
      ("table_count", .ofNat table.count), ("field_name", .string name),
      ("field_type", .string profile.type.text), ("field_nullable", .bool profile.nullable),
      ("sample_values", .string (samplesText profile.samples))]

def flatten (noted : Record.Noted) (format : Format) (tables : List TableInfo) :
    Option (Rendered × Nat) :=
  if format = .json then none
  else (format.render noted (flatRows tables)).toOption.map (·, (flatRows tables).length)

def describeAll (p : Provider) (maxSamples : Option Nat) :
    ExceptT String (StateM Journal) (List TableInfo) := do
  (← p.sortedNames).mapM (tableInfo p maxSamples)

def fullSchema (p : Provider) (options : SchemaOptions) :
    ExceptT SchemaTrouble (StateM Journal) FullSchema := do
  let some format := Format.ofName? options.format | throw (.unknownFormat options.format)
  let maxSamples := if options.includeSamples then some options.maxSamples else none
  let tables ← (describeAll p maxSamples).adapt SchemaTrouble.unexpected
  pure ⟨format, tables, flatten (← get).noted format tables⟩

/-- What is told of a table whose rows cannot be counted. -/
def uncounted (name reason : String) : String :=
  "Error getting count for table '" ++ name ++ "': " ++ reason

def countOf (p : Provider) (name : String) : Recorded (Nat × List String) := do
  match ← fetchRows p name with
  | .ok rows => pure (rows.length, [])
  | .error reason => pure (0, [uncounted name reason])

def tableCounts (p : Provider) : ExceptT String (StateM Journal) TableCounts := do
  let results ← (← p.sortedNames).mapM fun name => do
    pure (name, ← ExceptT.lift (countOf p name))
  pure ⟨Record.ofList (results.map fun (name, count, _) => (name, count)),
    results.flatMap (·.2.2)⟩

/-- The line of a table with its description, which may be empty. -/
def summaryLine (name description : String) : String :=
  "- **" ++ name ++ "**" ++ (if description = "" then "" else ": " ++ description) ++ "\n"

/-- The table that the examples query: the first one that is not the list of tables. -/
def exampleTable (names : List String) : String :=
  match names.find? (· != Catalog.tablesName) with
  | some name => name
  | none => names.head?.getD ""

/-- The summary of some tables, each with its description. -/
def summaryText (tables : List (String × String)) : String :=
  let list :=
    if tables.isEmpty then "No tables available.\n"
    else String.join (tables.map fun (name, description) => summaryLine name description)
  let table := exampleTable (tables.map (·.1))
  let examples :=
    if table = "" then ""
    else
      "\n## Examples\n\n```sql\nSELECT * FROM " ++ table ++ " LIMIT 3\n"
        ++ "SELECT COUNT(*) AS total FROM " ++ table ++ "\n```\n"
  "# Available Tables\n\n" ++ list ++ "\n## Query Syntax\n\n"
    ++ "`SELECT [DISTINCT] fields FROM table [WHERE conditions] [GROUP BY fields] "
    ++ "[ORDER BY fields [ASC|DESC]] [LIMIT n]`\n\n"
    ++ "- Fields may be nested paths such as `data.location.x`\n"
    ++ "- Operators: =, !=, <>, >, <, >=, <=, LIKE, ILIKE, IN, BETWEEN, IS NULL, IS NOT NULL "
    ++ "(and NOT forms)\n"
    ++ "- Conditions combine strictly left to right: `a OR b AND c` means `(a OR b) AND c`\n"
    ++ "- Aggregates: " ++ Text.commaJoin (Aggregate.all.map Aggregate.name) ++ "\n"
    ++ "- Output formats: " ++ Text.commaJoin Format.names ++ "\n" ++ examples

def summary (p : Provider) : Except String String := do
  let tables ← (← p.sortedNames).mapM fun name => do
    let description ← p.describe name
    pure (name, description)
  pure (summaryText tables)

end Engine
end TableQuery
