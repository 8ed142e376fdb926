import TableQuery.Catalog.Basic

/-! # Providers of tables

A provider answers which tables there are and what rows they hold. Any of its
answers may fail, with a text that says why. A catalog is a provider that fails only
for the rows of tables it does not hold.
-/
namespace TableQuery

structure Provider where
  hasTable : String → Except String Bool
  names : Except String (List String)
  rows : String → Except String (List Row)
  description : String → Except String (Option String)

namespace Provider

def sortedNames (p : Provider) : Except String (List String) := p.names.map Text.sorted

def describe (p : Provider) (name : String) : Except String String :=
  (p.description name).map fun description => description.getD ""

end Provider

def Catalog.provider (c : Catalog) : Provider where
  hasTable name := .ok (c.has name)
  names := .ok c.names
  rows name :=
    match c.rows? name with
    | some rows => .ok rows
    | none => .error ("Unknown table: " ++ name)
  description name := .ok (c.description? name)

end TableQuery
