import TableQuery.Render.Cell
import TableQuery.Text.Unit

/-! # Aligned text tables

A header, a line of dashes as wide as the header, and one line for each row. Every
column is as wide as its widest cell or its name, measured in 16-bit units, and a
bar stands between columns. The last line is not closed.
-/
namespace TableQuery.Render.Aligned

def columnWidth (name : String) (cells : List String) : Nat :=
  cells.foldl (fun width cell => max width (Text.width cell)) (Text.width name)

def widths (names : List String) (lines : List (List String)) : List Nat :=
  names.zipIdx.map fun (name, i) => columnWidth name (lines.filterMap fun cells => cells[i]?)

def line (widths : List Nat) (cells : List String) : String :=
  " | ".intercalate (cells.zipWith (fun cell width => Text.padRight width cell) widths)

def dashes (n : Nat) : String := String.ofList (List.replicate n '-')

def ofLines (names : List String) (lines : List (List String)) : String :=
  let widths := widths names lines
  let header := line widths names
  "\n".intercalate (header :: dashes (Text.width header) :: lines.map (line widths))

def text (noted : Record.Noted) (rows : List Row) : Except Record.BuiltinRead String :=
  if rows.isEmpty then .ok "No data"
  else do
    let names := columns rows
    let lines ← rows.mapM fun row => names.mapM (cell noted "length" row)
    pure (ofLines names lines)

end TableQuery.Render.Aligned
