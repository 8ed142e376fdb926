import TableQuery.Session.Overview

/-! # Tools

The engine's services under fixed names, with arguments given as plain data. A call
always comes back with an answer and whether it succeeded.
-/
namespace TableQuery

inductive Tool where
  | query
  | tableCounts
  | tableSchema
  deriving DecidableEq, Repr

inductive ToolAnswer where
  | text (text : String)
  | response (response : Response)
  | counts (counts : TableCounts)
  | schema (schema : TableSchema)

namespace Tool

def all : List Tool := [query, tableCounts, tableSchema]

def name : Tool → String
  | query => "query"
  | tableCounts => "table_counts"
  | tableSchema => "table_schema"

def ofName? (name : String) : Option Tool := all.find? fun tool => tool.name == name

structure QueryArguments where
  query : String
  limit : Option Float
  format : String

/-- The arguments of a call: nothing and null are no arguments. -/
def given : Option Plain → Option Plain
  | none => some (.map [])
  | some .null => some (.map [])
  | some p => some p

def arguments {α : Type} (check : Record Plain → Checked α) (args : Option Plain) :
    Except (List Issue) α :=
  let fields := Plain.checkObject (given args)
  if fields.issues.isEmpty then (check fields.value).result else .error fields.issues

def checkQuery (fields : Record Plain) : Checked QueryArguments :=
  let query := Plain.checkString ["expr"] "" (Record.get? fields "expr")
  let limit := Plain.checkInt ["limit"] (Record.get? fields "limit")
  let format := Plain.checkString ["format"] "json" (Record.get? fields "format")
  ⟨query.issues ++ limit.issues ++ format.issues, ⟨query.value, limit.value, format.value⟩⟩

def checkTable (fields : Record Plain) : Checked String :=
  Plain.checkName ["table"] (Record.get? fields "table")

def refused (tool : Tool) (issues : List Issue) : Bool × ToolAnswer :=
  (false, .text ("Invalid arguments for " ++ tool.name ++ ": " ++ Issue.lines issues))

def failed (tool : Tool) (reason : String) : Recorded (Bool × ToolAnswer) := do
  modify (Journal.log (.message ("Error in tool '" ++ tool.name ++ "': " ++ reason)))
  pure (false, .text (tool.name ++ " error: " ++ reason))

def callQuery (e : Engine) (p : Provider) (args : Option Plain) : Recorded (Bool × ToolAnswer) := do
  match arguments checkQuery args with
  | .error issues => pure (refused .query issues)
  | .ok a =>
    if a.query = "" then pure (false, .text "No query provided")
    else
      let response ← e.execute p a.query a.limit a.format
      pure (response.isSuccess, .response response)

def callCounts (p : Provider) (args : Option Plain) : Recorded (Bool × ToolAnswer) := do
  match arguments (fun _ => ⟨[], ()⟩) args with
  | .error issues => pure (refused .tableCounts issues)
  | .ok () =>
    match ← (Engine.tableCounts p).run with
    | .ok counts => pure (true, .counts counts)
    | .error reason => failed .tableCounts reason

def callSchema (e : Engine) (p : Provider) (args : Option Plain) :
    Recorded (Bool × ToolAnswer) := do
  match arguments checkTable args with
  | .error issues => pure (refused .tableSchema issues)
  | .ok table =>
    match ← (e.tableSchema p table).run with
    | .ok schema => pure (true, .schema schema)
    | .error trouble => failed .tableSchema trouble.message

def call (e : Engine) (p : Provider) (name : String) (args : Option Plain) :
    Recorded (Bool × ToolAnswer) :=
  match ofName? name with
  | none => pure (false, .text ("Unknown tool: " ++ name))
  | some .query => callQuery e p args
  | some .tableCounts => callCounts p args
  | some .tableSchema => callSchema e p args

end Tool
end TableQuery
