/-! # Look-up tables in order of entry

A list of keys with their values, in which a key that is entered again keeps its
place and takes the new value.
-/
namespace TableQuery.Entries
variable {α : Type}

def set (entries : List (String × α)) (key : String) (a : α) : List (String × α) :=
  if (entries.lookup key).isSome then
    entries.map fun entry => if entry.1 = key then (key, a) else entry
  else entries ++ [(key, a)]

def has (entries : List (String × α)) (key : String) : Bool := (entries.lookup key).isSome

end TableQuery.Entries
