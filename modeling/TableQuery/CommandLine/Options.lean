import TableQuery.CommandLine.Arguments
import TableQuery.Number.Notation

/-! # Command line options

The first positional argument names the data file, the others joined by blanks are
the query. Names of files and tables must not be empty, and a limit is an integer.
-/
namespace TableQuery.CommandLine

structure Options where
  dataFile : Option String
  query : Option String
  format : String
  limit : Option Float
  tables : Bool
  schema : Option String
  summary : Bool
  config : Option String
  log : Bool
  help : Bool

inductive BadArguments where
  | misuse (misuse : Misuse)
  | invalid (issues : List Issue)
  deriving DecidableEq, Repr

def BadArguments.message : BadArguments → String
  | misuse m => m.message
  | invalid issues => Issue.lines issues

namespace Options

def joinQuery (words : List String) : Option String :=
  let query := " ".intercalate words
  if query = "" then none else some query

def checkFilled (path : List String) : Option String → Checked (Option String)
  | some "" => ⟨[⟨path, .emptyText⟩], none⟩
  | text => ⟨[], text⟩

def isInteger : List Char → Bool
  | '-' :: digits => !digits.isEmpty && digits.all Char.isDigit
  | digits => !digits.isEmpty && digits.all Char.isDigit

def checkLimit : Option String → Checked (Option Float)
  | none => ⟨[], none⟩
  | some text =>
    if isInteger text.toList then ⟨[], some (Number.ofText text)⟩
    else ⟨[⟨["limit"], .notInteger⟩], none⟩

def check (a : Arguments) : Checked Options :=
  let dataFile := checkFilled ["dataFile"] a.positionals.head?
  let limit := checkLimit (a.value? .limit)
  let schema := checkFilled ["schema"] (a.value? .schema)
  let config := checkFilled ["config"] (a.value? .config)
  { issues := dataFile.issues ++ limit.issues ++ schema.issues ++ config.issues
    value := {
      dataFile := dataFile.value
      query := joinQuery a.positionals.tail
      format := (a.value? .format).getD "json"
      limit := limit.value
      tables := a.isGiven .tables
      schema := schema.value
      summary := a.isGiven .summary
      config := config.value
      log := a.isGiven .log
      help := a.isGiven .help } }

def read (arguments : List String) : Except BadArguments Options := do
  let a ← (Arguments.read arguments).mapError .misuse
  (check a).result.mapError .invalid

end Options
end TableQuery.CommandLine
