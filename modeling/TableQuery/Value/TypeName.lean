import TableQuery.Value.Basic

/-! # Names of types

Every value has a type with a name for readers; the type of a list is named after
its first item. The types met in one field are joined: null says nothing, a list
without items says nothing about its items, and any other disagreement is mixed.
-/
namespace TableQuery

inductive TypeName where
  | null
  | boolean
  | integer
  | float
  | string
  | array
  | arrayOf (item : TypeName)
  | object
  | mixed
  deriving DecidableEq, Repr

namespace TypeName

def text : TypeName → String
  | null => "null"
  | boolean => "boolean"
  | integer => "integer"
  | float => "float"
  | string => "string"
  | array => "array"
  | arrayOf item => "array[" ++ item.text ++ "]"
  | object => "object"
  | mixed => "mixed"

def isArrayOf : TypeName → Bool
  | arrayOf _ => true
  | _ => false

/-- The type of a field that had the first type so far and meets the second. -/
def join (current next : TypeName) : TypeName :=
  if current = null ∨ current = next then next
  else if current = array ∧ next.isArrayOf then next
  else if next = array ∧ current.isArrayOf then current
  else mixed

end TypeName

def Value.typeName : Value → TypeName
  | .null => .null
  | .bool _ => .boolean
  | .int _ => .integer
  | .float _ => .float
  | .string _ => .string
  | .list [] => .array
  | .list (item :: _) => .arrayOf (Value.typeName item)
  | .map _ => .object

end TableQuery
