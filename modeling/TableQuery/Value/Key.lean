import TableQuery.Value.Order

/-! # Keys of tuples

A tuple of values is identified by the JSON text of its shape, in which every value
carries a letter for its kind, numbers of both kinds the same one, and the fields of
a map are sorted by name. Equal tuples have equal keys.
-/
namespace TableQuery.Value

def tagged (tag : String) (p : Plain) : Plain := .list [.string tag, p]

mutual
def shape : Value → Plain
  | .null => .null
  | .bool b => tagged "b" (.bool b)
  | .int x => tagged "n" (.number x)
  | .float x => tagged "n" (.number x)
  | .string s => tagged "s" (.string s)
  | .list items => tagged "l" (.list (shapeItems items))
  | .map fields =>
    let sorted := (shapeFields fields).mergeSort fun a b => (Text.order a.1 b.1).isLE
    tagged "m" (.list (sorted.map fun field => .list [.string field.1, field.2]))

def shapeItems : List Value → List Plain
  | [] => []
  | item :: items => shape item :: shapeItems items

def shapeFields : List (String × Value) → List (String × Plain)
  | [] => []
  | (name, item) :: fields => (name, shape item) :: shapeFields fields
end

def tupleKey (values : List Value) : String := (Plain.list (shapeItems values)).jsonText

end TableQuery.Value
