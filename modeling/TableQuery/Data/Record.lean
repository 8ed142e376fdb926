/-! # Records

A record is a list of named fields. Names that are plain whole numbers come first,
in numeric order; all others keep the order in which they were first set. Setting a
name again keeps its place, and the name `__proto__` holds no field.
-/
namespace TableQuery

abbrev Record (α : Type) := List (String × α)

namespace Record
variable {α : Type}

/-- The whole number that a name writes without superfluous zeros, up to `2 ^ 32 - 2`. -/
def index? (name : String) : Option Nat :=
  let cs := name.toList
  let n := cs.foldl (fun n c => n * 10 + (c.toNat - 48)) 0
  if cs ≠ [] ∧ cs.all Char.isDigit ∧ (cs.head? ≠ some '0' ∨ cs = ['0']) ∧ n < Nat.pow 2 32 - 1 then
    some n
  else none

def get? (r : Record α) (name : String) : Option α := r.lookup name

def has (r : Record α) (name : String) : Bool := (r.lookup name).isSome

def names (r : Record α) : List String := r.map (·.1)

/-- Whether a new field named `name` stands behind a field named `other`. -/
def comesAfter (name other : String) : Bool :=
  match index? name, index? other with
  | some n, some m => m < n
  | some _, none => false
  | none, _ => true

def insert (r : Record α) (name : String) (a : α) : Record α :=
  r.takeWhile (fun field => comesAfter name field.1) ++
    (name, a) :: r.dropWhile (fun field => comesAfter name field.1)

def set (r : Record α) (name : String) (a : α) : Record α :=
  if name = "__proto__" then r
  else if has r name then r.map fun field => if field.1 = name then (name, a) else field
  else insert r name a

def ofList (fields : List (String × α)) : Record α :=
  fields.foldl (fun r field => set r field.1 field.2) []

/-- The names that every record answers to without holding them. -/
def builtinNames : List String :=
  ["constructor", "__defineGetter__", "__defineSetter__", "hasOwnProperty", "__lookupGetter__",
    "__lookupSetter__", "__proto__", "isPrototypeOf", "propertyIsEnumerable", "toString",
    "valueOf", "toLocaleString"]

def isBuiltin (name : String) : Bool := builtinNames.contains name

/-- What was written onto the records that all others inherit from: the builtin names whose records
were given a type, and whether the record under `__proto__` was marked as nullable. -/
structure Noted where
  typed : List String := []
  nullable : Bool := false
  deriving DecidableEq, Repr

namespace Noted

/-- Whether the record under a builtin name shows a type, its own or the one that all show. -/
def hasType (n : Noted) (name : String) : Bool :=
  n.typed.contains name || n.typed.contains "__proto__"

def answers (n : Noted) (name : String) : Bool :=
  isBuiltin name || (name == "type" && n.hasType "__proto__") || (name == "nullable" && n.nullable)

end Noted

/-- A record was asked for a field it does not hold by a name that it answers to all the same,
and the answer lacks the named property of a text. -/
structure BuiltinRead where
  property : String
  deriving DecidableEq, Repr

def BuiltinRead.message (r : BuiltinRead) : String :=
  "Cannot read properties of undefined (reading '" ++ r.property ++ "')"

end Record
end TableQuery
