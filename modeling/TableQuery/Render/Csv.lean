import TableQuery.Render.Cell

/-! # Comma separated text

A header with the columns of the first row and one line for each row, every line
closed by a line feed. A field that holds a comma, a quote, a line feed or a
carriage return stands between quotes, with its quotes written twice.
-/
namespace TableQuery.Render.Csv

def needsQuotes (cs : List Char) : Bool :=
  cs.any fun c => c == ',' || c == '"' || c == '\n' || c == '\r'

def doubled (cs : List Char) : List Char := cs.flatMap fun c => if c = '"' then ['"', '"'] else [c]

def field (cs : List Char) : List Char :=
  if needsQuotes cs then '"' :: (doubled cs ++ ['"']) else cs

def line (fields : List (List Char)) : List Char :=
  [','].intercalate (fields.map field) ++ ['\n']

def ofRecords (records : List (List String)) : String :=
  String.ofList (records.flatMap fun fields => line (fields.map String.toList))

def records (noted : Record.Noted) (rows : List Row) :
    Except Record.BuiltinRead (List (List String)) := do
  let names := columns rows
  let cells ← rows.mapM fun row => names.mapM (cell noted "includes" row)
  pure (names :: cells)

def text (noted : Record.Noted) (rows : List Row) : Except Record.BuiltinRead String :=
  if rows.isEmpty then .ok "" else (records noted rows).map ofRecords

end TableQuery.Render.Csv
