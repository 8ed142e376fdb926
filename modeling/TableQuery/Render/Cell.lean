import TableQuery.Value.Text

/-! # Cells of a text table

The columns of a text table are the fields of its first row. A row without a field
of that name has an empty cell there, unless the name is one that every record
answers to.
-/
namespace TableQuery.Render

def columns : List Row → List String
  | [] => []
  | row :: _ => Record.names row

/-- The cell of a row in a column; `property` is what is asked of the text of a cell. -/
def cell (noted : Record.Noted) (property : String) (row : Row) (column : String) :
    Except Record.BuiltinRead String :=
  match Record.get? row column with
  | some v => .ok v.cell
  | none => if noted.answers column then .error ⟨property⟩ else .ok ""

end TableQuery.Render
