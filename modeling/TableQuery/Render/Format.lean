import TableQuery.Render.Aligned
import TableQuery.Render.Csv
import TableQuery.Text.Letter

/-! # Output formats

Result rows are returned as plain data, as comma separated text or as an aligned
text table. Formats are named in any case.
-/
namespace TableQuery

inductive Format where
  | json
  | csv
  | table
  deriving DecidableEq, Repr

/-- A rendered result. -/
inductive Rendered where
  | rows (rows : List PlainRow)
  | text (text : String)

namespace Rendered

def toPlain : Rendered → Plain
  | .rows plainRows => .list (plainRows.map .map)
  | .text s => .string s

end Rendered

namespace Format

def all : List Format := [json, csv, table]

def name : Format → String
  | json => "json"
  | csv => "csv"
  | table => "table"

def ofName? (name : String) : Option Format :=
  all.find? fun format => format.name == Text.lower name

def names : List String := all.map name

def unknownMessage (name : String) : String :=
  "Unknown format: " ++ name ++ ". Available formats: " ++ Text.commaJoin names

def render (noted : Record.Noted) (format : Format) (rows : List Row) :
    Except Record.BuiltinRead Rendered :=
  match format with
  | json => .ok (.rows (rows.map Row.toPlain))
  | csv => (Render.Csv.text noted rows).map .text
  | table => (Render.Aligned.text noted rows).map .text

end Format
end TableQuery
