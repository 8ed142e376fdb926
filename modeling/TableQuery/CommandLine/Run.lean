import TableQuery.CommandLine.Files
import TableQuery.CommandLine.Options
import TableQuery.Session.Overview

/-! # Running the command line

One run answers one request about the tables of a data file and ends with exit code
0, or says what is wrong and ends with exit code 1. The requests, the first of which
counts, are the row counts, the schema of a table, the summary and a query.
-/
namespace TableQuery.CommandLine

def usage : String :=
  "Usage: rowquery <data.json> [query] [options]
       rowquery <data.json> [options] -- <query>

Quote the query, or put it after --, when it holds a token that starts with
a dash, such as a negative number.

Options:
  -f, --format <format>   Output format: json, csv or table (default json)
  -l, --limit <n>         Maximum rows returned, 0 for no limit
      --tables            Print the row count of every table
      --schema <table>    Print the schema of a table
      --summary           Print a Markdown summary of the tables
  -c, --config <file>     Engine settings (JSON)
      --log               Write a log file
  -h, --help              Show this help"

inductive Message where
  | output (text : String)
  | info (text : String)
  | error (text : String)
  deriving DecidableEq, Repr

structure Outcome where
  code : Nat
  messages : List Message
  deriving DecidableEq, Repr

/-- What a run has left behind so far: the journal and the messages it wrote. -/
structure Progress where
  journal : Journal
  messages : List Message

/-- A run under way. It may break off, with the text of what went wrong. -/
abbrev Running (α : Type) := ExceptT String (StateM Progress) α

namespace Running

def write (m : Message) : Running Unit :=
  modify fun p => { p with messages := p.messages ++ [m] }

def output (text : String) : Running Unit := write (.output text)

def info (text : String) : Running Unit := write (.info text)

def error (text : String) : Running Unit := write (.error text)

/-- A step that keeps the journal and writes nothing. -/
def record {α : Type} (x : Recorded α) : Running α := fun p =>
  let (a, journal) := x.run p.journal
  (.ok a, { p with journal := journal })

/-- A recorded step that breaks the run off where it fails. -/
def attempt {α ε : Type} (message : ε → String) (x : ExceptT ε (StateM Journal) α) : Running α := do
  match ← record x.run with
  | .ok a => pure a
  | .error e => throw (message e)

end Running

open Running

/-- The text of rendered rows: rows that are no text yet are written as JSON. -/
def renderedText : Rendered → String
  | .text s => s
  | r => r.toPlain.indentedText

def countText (n : Nat) : String := toString n ++ if n = 1 then " row" else " rows"

def answerCounts (p : Provider) : Running Nat := do
  let counts ← attempt id (Engine.tableCounts p)
  output counts.toPlain.indentedText
  pure 0

def answerSchema (e : Engine) (p : Provider) (table : String) : Running Nat := do
  let schema ← attempt TableTrouble.message (e.tableSchema p table)
  output schema.toPlain.indentedText
  pure 0

def answerSummary (p : Provider) : Running Nat := do
  let text ← Engine.summary p
  output text
  pure 0

def answerResponse : Response → Running Nat
  | .success _ count data => do
    output (renderedText data)
    info (countText count)
    pure 0
  | .failure _ f => do
    error f.message
    pure 1

def answerQuery (o : Options) (e : Engine) (p : Provider) (query : String) : Running Nat := do
  let limit := o.limit.getD (Number.ofNat e.settings.defaultLimit)
  answerResponse (← record (e.execute p query (some limit) o.format))

def misuse (text : String) : Running Nat := do
  error text
  info usage
  pure 1

/-- Answers the request of the options from the tables of a provider. -/
def answer (o : Options) (e : Engine) (p : Provider) : Running Nat :=
  if o.tables then answerCounts p
  else
    match o.schema, o.summary, o.query with
    | some table, _, _ => answerSchema e p table
    | none, true, _ => answerSummary p
    | none, false, none => misuse "No query provided"
    | none, false, some query => answerQuery o e p query

/-- The settings that the options name, with logging on where the options say so. -/
def settings (files : String → FileContent) (o : Options) : Except String Settings := do
  let s ←
    match o.config with
    | some name => (loadSettings name (files name)).mapError (FileTrouble.ofSettings name)
    | none => pure {}
  pure (if o.log then { s with log := { s.log with enabled := true } } else s)

def runOn (files : String → FileContent) (o : Options) (dataFile : String) : Running Nat := do
  let s ← settings files o
  record (modify (Journal.start s))
  let catalog ← (loadCatalog dataFile (files dataFile)).mapError (FileTrouble.ofCatalog dataFile)
  answer o ⟨s⟩ catalog.provider

def report (reason : String) : Running Nat := do
  error reason
  pure 1

/-- The exit code of a run with the given arguments, where `files` tells what is found under a
name. -/
def exitCode (files : String → FileContent) (arguments : List String) : Running Nat :=
  match Options.read arguments with
  | .error bad => misuse bad.message
  | .ok o =>
    if o.help then do
      output usage
      pure 0
    else
      match o.dataFile with
      | none => misuse "Missing data file"
      | some dataFile => tryCatch (runOn files o dataFile) report

/-- The outcome of a run with the given arguments. A run that broke off all the same would be
reported last. -/
def run (files : String → FileContent) (arguments : List String) : Recorded Outcome := fun j =>
  match (exitCode files arguments).run ⟨j, []⟩ with
  | (.ok code, p) => (⟨code, p.messages⟩, p.journal)
  | (.error reason, p) => (⟨1, p.messages ++ [.error ("Unhandled error: " ++ reason)]⟩, p.journal)

def outputText (text : String) : String := if text.endsWith "\n" then text else text ++ "\n"

/-- The text of a log file, if there is one: what it held before, and a line for each entry. -/
def logText (line : LogEntry → String) (before : Option String) (entries : List LogEntry) :
    Option String :=
  if entries.isEmpty then before
  else some (before.getD "" ++ String.join (entries.map fun entry => line entry ++ "\n"))

end TableQuery.CommandLine
