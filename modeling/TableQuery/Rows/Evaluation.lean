import TableQuery.Rows.Grouping

/-! # Evaluating calls

The function of a call is looked up by its name when the call is applied to rows. A
name that is known for no function is a fault.
-/
namespace TableQuery.Rows

def evaluateCall (call : Call) (rows : List Row) : Except Fault Value :=
  (callNamed call.function.name call.field).map (summarize · rows)

def evaluateCalls (calls : List (String × Call)) (rows : List Row) :
    Except Fault (List (String × Value)) :=
  calls.mapM fun (column, call) => (evaluateCall call rows).map (column, ·)

/-- The group of `members`, which agree with `first` in the group fields. -/
def evaluateGroup (fields : List String) (calls : List (String × Call)) (first : Row)
    (members : List Row) : Except Fault Group :=
  (evaluateCalls calls members).map fun values =>
    ⟨values, Record.ofList (fields.map (fun field => (field, first.lookup field)) ++ values)⟩

def evaluateGroups (fields : List String) (calls : List (String × Call)) (rows : List Row) :
    Except Fault (List Group) :=
  let keyed := rows.map fun row => (groupKey fields row, row)
  (keepFirst [] keyed).mapM fun (key, first) =>
    evaluateGroup fields calls first ((keyed.filter fun entry => entry.1 == key).map (·.2))

def evaluateWhole (calls : List (String × Call)) : List Row → Except Fault (List Group)
  | [] => .ok []
  | first :: rest => (evaluateGroup [] calls first (first :: rest)).map ([·])

end TableQuery.Rows
